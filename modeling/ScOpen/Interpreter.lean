import ScOpen.IntegerValues
import Mathlib.Logic.Function.Basic

/-!
# The control commands

The interpreter has no syntax tree. Its loops and gosubs find their way by going over tokens and
by indices that they keep in variables numbered with a counter: `RETURN.n`, `FOR.n`, `TO.n`,
`STEP.n` and `WHILE.n`. The counters and these variables are shared by everything that runs. The
other variables, expressions and the commands without control flow are parameters.
-/

namespace ScOpen

/-- `nest`, `for_nest`, `while_nest` and the numbered variables of the current program. -/
structure Control where
  nest : ℤ
  forNest : ℤ
  whileNest : ℤ
  returnIdx : ℤ → Option ℕ
  forIdx : ℤ → Option ℕ
  forTo : ℤ → Option ℤ
  forStep : ℤ → Option ℤ
  whileIdx : ℤ → Option ℕ

def Control.reset (c : Control) : Control := { c with nest := 0, forNest := 0, whileNest := 0 }

/-! ## Entering a subroutine or a loop -/

/-- A `gosub` gives the next number to the index after it. -/
def Control.called (control : Control) (idx : ℕ) : Control :=
  { control with
    nest := control.nest + 1
    returnIdx := Function.update control.returnIdx (control.nest + 1) (some idx) }

def Control.inWhile (control : Control) (idx : ℕ) : Control :=
  { control with
    whileNest := control.whileNest + 1
    whileIdx := Function.update control.whileIdx (control.whileNest + 1) (some idx) }

def Control.overWhile (control : Control) (idx : ℕ) : Control :=
  { control with
    whileIdx := Function.update control.whileIdx (control.whileNest + 1) (some idx) }

def Control.setFor (control : Control) (n limit step : ℤ) (idx : ℕ) : Control :=
  { control with
    forIdx := Function.update control.forIdx n (some idx)
    forTo := Function.update control.forTo n (some limit)
    forStep := Function.update control.forStep n (some step) }

def Control.inFor (control : Control) (limit step : ℤ) (idx : ℕ) : Control :=
  { control with forNest := control.forNest + 1 }.setFor (control.forNest + 1) limit step idx

structure Control.Keeps (c c' : Control) : Prop where
  nest : c'.nest = c.nest
  forNest : c'.forNest = c.forNest
  whileNest : c'.whileNest = c.whileNest
  returnIdx : ∀ n ≤ c.nest, c'.returnIdx n = c.returnIdx n
  forIdx : ∀ n ≤ c.forNest, c'.forIdx n = c.forIdx n
  forTo : ∀ n ≤ c.forNest, c'.forTo n = c.forTo n
  forStep : ∀ n ≤ c.forNest, c'.forStep n = c.forStep n
  whileIdx : ∀ n ≤ c.whileNest, c'.whileIdx n = c.whileIdx n

theorem Control.Keeps.refl (c : Control) : c.Keeps c :=
  ⟨rfl, rfl, rfl, fun _ _ => rfl, fun _ _ => rfl, fun _ _ => rfl, fun _ _ => rfl, fun _ _ => rfl⟩

/-! ## Running programs -/

structure InterpEnv (σ : Type) where
  control : Control
  user : σ

abbrev Running (σ : Type) := Program (InterpEnv σ)

section

variable {σ : Type}

def Running.setControl (c : Control) (p : Running σ) : Running σ :=
  { p with env := { p.env with control := c } }

def Running.setUser (user : σ) (p : Running σ) : Running σ :=
  { p with env := { p.env with user := user } }

def Running.ahead (p : Running σ) : List Token := p.tokens.drop p.programIdx

end

inductive VarType where
  | user | userRef | userLocal

/-- What `expression()` returns: the status, the value, how many tokens it has taken, the index
before the last token that it has read, and the variables. -/
structure Expressed (σ : Type) where
  iret : ℕ
  value : Bytes
  consumed : ℕ
  savedProgramIdx : ℕ
  user : σ

/-- The status of a command, whether it waits, and the program after it. -/
structure CommandResult (σ : Type) where
  iret : ℕ
  wait : Bool
  program : Running σ

/-- What the interpreter is built on. Variables are looked up at the program's index, because
those of a label are found only there. -/
structure Language (σ : Type) where
  evaluateToken : ℕ → Bytes → σ → Bytes
  expression : List Token → ℕ → σ → Expressed σ
  variableGet : VarType → ℕ → Bytes → σ → Option Bytes
  variablePut : VarType → ℕ → Bytes → Bytes → σ → σ
  label : ℕ → Bytes → σ → Option ℕ
  takeArguments : List (TokenType × Bytes) → List Token → ℕ → σ → ℕ × ℕ × σ
  command : TokenType → Running σ → CommandResult σ
  staleIdx : Option ℕ

/-- `atoi()`, and the `%d` of `sscanf()` for a number that is 0 before. -/
def scanInt (text : Bytes) : ℤ :=
  let p := (cString text).dropWhile isSpace
  let sign := firstByte p = chr '-' ∨ firstByte p = chr '+'
  let digits := (if sign then p.tail else p).takeWhile fun c => IsDigit c
  let v : ℤ := decimalValue digits
  Int.bmod (max (-2 ^ 63) (min (if firstByte p = chr '-' then -v else v) (2 ^ 63 - 1))) (2 ^ 32)

/-! ## Going over tokens -/

def nestedEnd (opening closing : TokenType) : ℕ → List Token → ℕ
  | _, [] => 0
  | nest, t :: ts =>
      if t.type = .nullToken then 0
      else if t.type = opening then nestedEnd opening closing (nest + 1) ts + 1
      else if t.type = closing then
        if nest = 0 then 0 else nestedEnd opening closing (nest - 1) ts + 1
      else nestedEnd opening closing nest ts + 1

def ifEnd : ℕ → List Token → ℕ
  | _, [] => 0
  | nest, t :: ts =>
      match t.type with
      | .nullToken => 0
      | .if_ => ifEnd (nest + 1) ts + 1
      | .else_ | .elseIf => if nest = 0 then 0 else ifEnd nest ts + 1
      | .endIf => if nest = 0 then 0 else ifEnd (nest - 1) ts + 1
      | _ => ifEnd nest ts + 1

def loopEnd : ℕ → ℕ → List Token → ℕ
  | _, _, [] => 0
  | forNest, whileNest, t :: ts =>
      match t.type with
      | .nullToken | .after_ | .begin_ | .end_ | .label => 0
      | .for_ => loopEnd (forNest + 1) whileNest ts + 1
      | .while_ => loopEnd forNest (whileNest + 1) ts + 1
      | .next => if forNest = 0 then 0 else loopEnd (forNest - 1) whileNest ts + 1
      | .endWhile => if whileNest = 0 then 0 else loopEnd forNest (whileNest - 1) ts + 1
      | _ => loopEnd forNest whileNest ts + 1

/-- How many tokens come before a token with the text `name` right after a `next`. The flag says
that the token before was a `next`. -/
def forEnd (name : Bytes) : Bool → List Token → Option ℕ
  | _, [] => none
  | flag, t :: ts =>
      if t.type = .nullToken then none
      else if flag then
        if cString t.text = cString name then some 0 else (forEnd name false ts).map (· + 1)
      else (forEnd name (t.type = .next) ts).map (· + 1)

section

variable {σ : Type}

def getProgramTokenNoEval (p : Running σ) : TokenType × Bytes × Running σ :=
  getProgramToken (fun text env => (text, env)) p

def readAfter (k : ℕ) (p : Running σ) : TokenType × Bytes × Running σ :=
  getProgramTokenNoEval (setProgramTokenIdx (p.programIdx + k) p)

/-- `cmd_else()` and `cmd_else_if()`. -/
def cmdElse (p : Running σ) : Running σ :=
  (readAfter (nestedEnd .if_ .endIf 0 p.ahead) p).2.2

def cmdContinue (p : Running σ) : Running σ :=
  let (type, _, p) := readAfter (loopEnd 0 0 p.ahead) p
  if type = .next ∨ type = .endWhile then putProgramToken p else p

def whileBreak (p : Running σ) : Running σ :=
  p.setControl { p.env.control with whileNest := p.env.control.whileNest - 1 }

def cmdBreakLoop (p : Running σ) : Running σ :=
  let (type, _, p) := readAfter (loopEnd 0 0 p.ahead) p
  if type = .next then (getProgramTokenNoEval p).2.2
  else if type = .endWhile then whileBreak p
  else putProgramToken p

def cmdEndWhile (p : Running σ) : ℕ × Running σ :=
  let c := p.env.control
  if c.whileNest < 1 then (0, p)
  else
    match c.whileIdx c.whileNest with
    | none => (1, p)
    | some x =>
        (0, Running.setControl { c with whileNest := c.whileNest - 1 } (setProgramTokenIdx x p))

def cmdReturn (p : Running σ) : ℕ × Running σ :=
  let c := p.env.control
  if c.nest < 1 then (0, p)
  else
    match c.returnIdx c.nest with
    | none => (1, p)
    | some x => (0, Running.setControl { c with nest := c.nest - 1 } (setProgramTokenIdx x p))

end

/-! ## Commands with expressions -/

section

variable {σ : Type} (lang : Language σ)

def getToken (p : Running σ) : TokenType × Bytes × Running σ :=
  let (type, text, p) := getProgramTokenNoEval p
  (type, if type = .variable_ then lang.evaluateToken p.programIdx text p.env.user else text, p)

def evaluate (p : Running σ) : ℕ × Bytes × Running σ :=
  let e := lang.expression p.tokens p.programIdx p.env.user
  (e.iret, e.value,
    { p with
      programIdx := p.programIdx + e.consumed
      savedProgramIdx := e.savedProgramIdx
      env := { p.env with user := e.user } })

theorem readAfter_lt {k : ℕ} {p p' : Running σ} {type : TokenType} {text : Bytes}
    (h : readAfter k p = (type, text, p')) (htype : type ≠ .nullToken) :
    p'.tokens = p.tokens ∧ p'.programIdx = p.programIdx + k + 1 ∧
      p.programIdx + k < p.tokens.length := by
  simp only [readAfter, getProgramTokenNoEval, getProgramToken, setProgramTokenIdx] at h
  split at h
  · cases h
    exact absurd rfl htype
  · rename_i token hget
    obtain ⟨hlt, -⟩ := List.getElem?_eq_some_iff.1 hget
    split at h
    · cases h
      exact ⟨rfl, rfl, hlt⟩
    · cases h
      exact ⟨rfl, rfl, hlt⟩

/-- `cmd_if()`. The status of an `else_if` is dropped. -/
def cmdIf (p : Running σ) : ℕ × Running σ :=
  let e := evaluate lang p
  let q := e.2.2
  if e.1 ≠ 0 then (e.1, q)
  else if scanInt e.2.1 ≠ 0 then (0, q)
  else
    let r := readAfter (ifEnd 0 q.ahead) q
    if r.1 = .nullToken then (1, r.2.2)
    else if _h : r.1 = .elseIf then (0, (cmdIf r.2.2).2)
    else (0, r.2.2)
termination_by p.tokens.length - p.programIdx
decreasing_by
  rename_i _ _ hnull
  have hr : readAfter (ifEnd 0 q.ahead) q = (r.1, r.2.1, r.2.2) := rfl
  obtain ⟨htokens, hidx, hlt⟩ := readAfter_lt hr hnull
  have hle : p.programIdx ≤ q.programIdx := Nat.le_add_right _ _
  have hsame : q.tokens = p.tokens := rfl
  rw [hsame] at htokens hlt
  rw [htokens, hidx]
  omega

def whileCondition (p : Running σ) : ℕ × Running σ :=
  let (_, _, p) := getToken lang p
  let (iret, value, p) := evaluate lang p
  if iret ≠ 0 then (iret, p)
  else if scanInt value ≠ 0 then (0, p)
  else
    let (type, _, p) := readAfter (nestedEnd .while_ .endWhile 0 p.ahead) p
    if type = .nullToken then (1, p) else (0, whileBreak p)

def cmdWhile (p : Running σ) : ℕ × Running σ :=
  let c := p.env.control
  let n := c.whileNest + 1
  let p := putProgramToken (p.setControl { c with whileNest := n })
  whileCondition lang (Running.setControl
    { p.env.control with whileIdx := Function.update c.whileIdx n (some p.programIdx) } p)

/-- The step of a `for`, and the index after its head. -/
def forStep (n x y : ℤ) (p : Running σ) : ℕ × ℤ × ℤ × Running σ :=
  let (type, _, q) := getToken lang p
  let (iret, value, p) :=
    if type = .step then evaluate lang q else (0, [chr '1'], putProgramToken q)
  let c := p.env.control
  (iret, x, y, p.setControl
    { c with
      forStep := Function.update c.forStep n (some (scanInt value))
      forIdx := Function.update c.forIdx n (some p.programIdx) })

def forTo (n x : ℤ) (p : Running σ) : ℕ × ℤ × ℤ × Running σ :=
  let (iret, value, p) := evaluate lang p
  if iret ≠ 0 then (iret, x, 0, p)
  else
    let y := scanInt value
    let c := p.env.control
    forStep lang n x y (p.setControl { c with forTo := Function.update c.forTo n (some y) })

def forHead (n : ℤ) (type : TokenType) (name : Bytes) (p : Running σ) :
    ℕ × ℤ × ℤ × Running σ :=
  if type ≠ .identifier then (1, 0, 0, p)
  else
    let (type, _, p) := getToken lang p
    if type ≠ .assign then (1, 0, 0, p)
    else
      let (iret, value, p) := evaluate lang p
      if iret ≠ 0 then (iret, 0, 0, p)
      else
        let x := scanInt value
        let p := p.setUser (lang.variablePut .user p.programIdx name value p.env.user)
        let (type, _, p) := getToken lang p
        if type ≠ .to_ then (1, x, 0, p) else forTo lang n x p

/-- A `for` whose first value is above its limit goes to a `next` with its variable. -/
def forSkip (name : Bytes) (r : ℕ × ℤ × ℤ × Running σ) : ℕ × Running σ :=
  let (iret, x, y, p) := r
  if x > y then
    let c := p.env.control
    let p := p.setControl { c with forNest := c.forNest - 1 }
    match forEnd name false p.ahead with
    | none => (1, { p with savedProgramIdx := p.tokens.length })
    | some k => (iret, (readAfter k p).2.2)
  else (iret, p)

def cmdFor (p : Running σ) : ℕ × Running σ :=
  let c := p.env.control
  let n := c.forNest + 1
  let (type, name, p) := getToken lang (p.setControl { c with forNest := n })
  forSkip name (forHead lang n type name p)

/-- The `x + z` of `cmd_next()`, an `int`. -/
def nextValue (value : Bytes) (z : ℤ) : ℤ := Int.bmod (scanInt value + z) (2 ^ 32)

/-- `cmd_next()`; `none` when a variable of the loop is missing, which ends the process. -/
def cmdNext (p : Running σ) : Option (ℕ × Running σ) :=
  let (_, name, p) := getToken lang p
  let c := p.env.control
  match lang.variableGet .user p.programIdx name p.env.user with
  | none => some (1, p)
  | some value => do
      let y ← c.forTo c.forNest
      let z ← c.forStep c.forNest
      let x := nextValue value z
      if x ≤ y then
        let p := p.setUser (lang.variablePut .user p.programIdx name (intText x) p.env.user)
        let start ← c.forIdx c.forNest
        return (0, setProgramTokenIdx start p)
      else return (0, p.setControl { c with forNest := c.forNest - 1 })

def cmdGoto (p : Running σ) : ℕ × Running σ :=
  let (iret, value, p) := evaluate lang p
  if iret ≠ 0 then (iret, p)
  else
    match lang.label p.programIdx value p.env.user with
    | none => (1, p)
    | some num => (0, setProgramTokenIdx num p)

/-- The loop of `cmd_gosub()` over the arguments, which only the end of the line ends; `none`
when there is none. -/
def gosubQueue (iret : ℕ) (queue : List (TokenType × Bytes)) :
    ℕ → Running σ → Option (ℕ × List (TokenType × Bytes) × Running σ)
  | 0, _ => none
  | n + 1, p =>
      let (type, text, p) := getToken lang p
      if type = .endOfLine then some (iret, queue, p)
      else if type = .comma then gosubQueue iret queue n p
      else if type = .identifier then
        match lang.variableGet .userRef p.programIdx text p.env.user with
        | none => some (1, queue, p)
        | some value => gosubQueue 0 (queue ++ [(type, value)]) n p
      else gosubQueue iret (queue ++ [(type, text)]) n p

/-- `cmd_gosub()`; `none` when it reads beyond the end of the program for ever. The arguments are
taken at the label by a parameter. -/
def cmdGosub (p : Running σ) : Option (ℕ × Running σ) := do
  let (_, name, p) := getToken lang p
  let target := lang.label p.programIdx name p.env.user
  let (iret, queue, p) ← gosubQueue lang (if target = none then 1 else 0) [] (p.ahead.length + 1) p
  let c := p.env.control
  let n := c.nest + 1
  let p := p.setControl
    { c with nest := n, returnIdx := Function.update c.returnIdx n (some p.programIdx) }
  let idx := target.getD 0
  let (iret', consumed, user) := lang.takeArguments queue p.tokens idx p.env.user
  return (if iret' ≠ 0 then iret' else iret,
    Running.setUser user (setProgramTokenIdx (idx + consumed) p))

end

end ScOpen
