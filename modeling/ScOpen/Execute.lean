import ScOpen.Interpreter

/-!
# The main loop of the interpreter

`execute` takes the tokens of a program one command after another. A turn of its loop says which
command it has dispatched, if any, and whether the loop goes on.
-/

namespace ScOpen

inductive After where
  | go
  | leave (iret : ℕ)
  | gone
  deriving DecidableEq

abbrev Dispatch := ℕ × TokenType

structure Turn (σ : Type) where
  dispatched : Option Dispatch
  after : After
  program : Running σ

def TokenType.isPlainCommand : TokenType → Bool
  | .close_ | .define_ | .defineArray | .defineXref | .localVar | .delete_ | .let_ | .glet
  | .open_ | .print | .send | .sendReply | .setProgram | .sleep | .startTimer | .stopTimer
  | .pragma => true
  | _ => false

section

variable {σ : Type} (lang : Language σ)

def noWait (r : ℕ × Running σ) : CommandResult σ := ⟨r.1, false, r.2⟩

/-- The command that a token stands for; `none` when it does not return. The tokens of the
built-in functions are `function_`. -/
def command (type : TokenType) (p : Running σ) : Option (CommandResult σ) :=
  match type with
  | .breakLoop => some (noWait (0, cmdBreakLoop p))
  | .continue_ => some (noWait (0, cmdContinue p))
  | .else_ | .elseIf => some (noWait (0, cmdElse p))
  | .endWhile => some (noWait (cmdEndWhile p))
  | .for_ => some (noWait (cmdFor lang p))
  | .gosub => (cmdGosub lang p).map noWait
  | .goto_ => some (noWait (cmdGoto lang p))
  | .if_ => some (noWait (cmdIf lang p))
  | .next => (cmdNext lang p).map noWait
  | .return_ => some (noWait (cmdReturn p))
  | .while_ => some (noWait (cmdWhile lang p))
  | .exit_ => none
  | .function_ =>
      let (iret, _, p) := evaluate lang (putProgramToken p)
      some ⟨iret, false, p⟩
  | type =>
      if type.isPlainCommand then some (lang.command type p) else some ⟨1, false, p⟩

def getErrorToken (p : Running σ) : ℕ × Option ℕ × Running σ :=
  let (type, _, q) := getToken lang p
  if type = .error_ then
    let (type, _, q) := getToken lang q
    if type = .assign then
      let (_, name, q) := getToken lang q
      match lang.label q.programIdx name q.env.user with
      | none => (1, lang.staleIdx, q)
      | some num => (0, some num, q)
    else (0, lang.staleIdx, q)
  else if type = .noError then (0, some q.programIdx, q)
  else
    let q := putProgramToken q
    (0, lang.label q.programIdx (cstr "default_error") q.env.user, q)

def resetNests (p : Running σ) : Running σ := p.setControl p.env.control.reset

def afterCommand (dispatch : Dispatch) (r : CommandResult σ) : Turn σ :=
  let waits := fun p => (⟨some dispatch, if r.wait then .leave 0 else .go, p⟩ : Turn σ)
  if r.iret = 0 then waits r.program
  else
    let (iret, errorIdx, p) := getErrorToken lang r.program
    if iret ≠ 0 then ⟨some dispatch, .leave iret, resetNests p⟩
    else
      match errorIdx with
      | none => ⟨some dispatch, .leave 0, resetNests p⟩
      | some idx => waits (setProgramTokenIdx idx p)

def runCommand (idx : ℕ) (type : TokenType) (p : Running σ) : Turn σ :=
  match command lang type p with
  | none => ⟨some (idx, type), .gone, p⟩
  | some r => afterCommand lang (idx, type) r

def turn (p : Running σ) : Turn σ :=
  let idx := p.programIdx
  let (type, _, p) := getToken lang p
  match type with
  | .nullToken | .after_ | .begin_ | .end_ | .break_ | .label => ⟨none, .leave 0, p⟩
  | .lineNumber | .endOfLine | .endIf | .noError | .then_ => ⟨none, .go, p⟩
  | .error_ =>
      let (_, _, p) := getToken lang p
      let (_, _, p) := getToken lang p
      ⟨none, .go, p⟩
  | type => runCommand lang idx type p

def executeTurns : ℕ → Running σ → List Dispatch × After × Running σ
  | 0, p => ([], .go, p)
  | n + 1, p =>
      let t := turn lang p
      match t.after with
      | .go =>
          let (ds, after, q) := executeTurns n t.program
          (t.dispatched.toList ++ ds, after, q)
      | after => (t.dispatched.toList, after, t.program)

variable {lang}

theorem afterCommand_dispatched (d : Dispatch) (r : CommandResult σ) :
    (afterCommand lang d r).dispatched = some d := by
  simp only [afterCommand]
  split
  · rfl
  · split
    · rfl
    · split <;> rfl

theorem runCommand_dispatched (i : ℕ) (type : TokenType) (p : Running σ) :
    (runCommand lang i type p).dispatched = some (i, type) := by
  rw [runCommand]
  cases command lang type p with
  | none => rfl
  | some r => exact afterCommand_dispatched (i, type) r

end

end ScOpen
