import ScOpen.ControlEffects
import ScOpen.NumberedStacks

/-!
# Activities that take turns

The main program and the message handlers run one at a time. An activity is suspended where it
waits, and others go on with the same counters and the same numbered variables. Beside the
interpreter it is followed here which gosubs and loops each activity has entered and not left.
-/

namespace ScOpen

open NumberedStacks

/-- What a `for` has stored: its limit, its step, and where its body starts. -/
structure ForLoop where
  limit : ℤ
  step : ℤ
  idx : ℕ

/-- The gosubs and loops that are entered and not left, newest first, each with its activity. A
gosub is known by the index right after it, and a `while` by its own. -/
structure Entered where
  calls : List (ℕ × ℕ)
  fors : List (ℕ × ForLoop)
  whiles : List (ℕ × ℕ)

structure Activities (σ : Type) where
  env : InterpEnv σ
  position : ℕ → ℕ
  entered : Entered

inductive ActivityOp (σ : Type) where
  /-- One turn of `execute()` in an activity. -/
  | turn (a : ℕ)
  /-- A message or a reply starts an activity, or resumes it, at an index. -/
  | place (a idx : ℕ) (user : σ)

section

variable {σ : Type} (lang : Language σ) (tokens : List Token)

def CommandResult.unhandled (r : CommandResult σ) : Bool :=
  r.iret ≠ 0 && ((getErrorToken lang r.program).1 ≠ 0 || (getErrorToken lang r.program).2.1.isNone)

def Entered.run (e : Entered) (a : ℕ) (type : TokenType) (q : Running σ) (c : Control) : Entered :=
  match type with
  | .gosub => { e with calls := (a, (gosubEnd lang q).getD 0) :: e.calls }
  | .return_ => { e with calls := leave a e.calls }
  | .for_ =>
      if q.env.control.forNest < c.forNest then
        { e with fors := (a, ⟨(c.forTo c.forNest).getD 0, (c.forStep c.forNest).getD 0,
          (c.forIdx c.forNest).getD 0⟩) :: e.fors }
      else e
  | .next =>
      if c.forNest < q.env.control.forNest then { e with fors := leave a e.fors } else e
  | .while_ =>
      if q.env.control.whileNest < c.whileNest then
        { e with whiles := (a, q.savedProgramIdx) :: e.whiles }
      else e
  | .endWhile => { e with whiles := leave a e.whiles }
  | .breakLoop =>
      if breakEnd q = .next then { e with fors := leave a e.fors }
      else if breakEnd q = .endWhile then { e with whiles := leave a e.whiles }
      else e
  | _ => e

def Entered.drop (e : Entered) (a : ℕ) : Entered :=
  ⟨leaveAll a e.calls, leaveAll a e.fors, leaveAll a e.whiles⟩

def Entered.next (e : Entered) (a : ℕ) (p : Running σ) : Entered :=
  match (turn lang p).dispatched with
  | none => e
  | some (_, type) =>
      let q := (getToken lang p).2.2
      match command lang type q with
      | none => e
      | some r => if r.unhandled lang then e.drop a else e.run lang a type q r.program.env.control

def Activities.running (s : Activities σ) (a : ℕ) : Running σ :=
  ⟨tokens, s.position a, s.position a, s.env⟩

/-- `none` when the process ends. -/
def Activities.step (s : Activities σ) : ActivityOp σ → Option (Activities σ)
  | .turn a =>
      let p := s.running tokens a
      let t := turn lang p
      if t.after = .gone then none
      else some ⟨t.program.env, Function.update s.position a t.program.programIdx,
        s.entered.next lang a p⟩
  | .place a idx user =>
      some { s with
        env := { s.env with user := user }
        position := Function.update s.position a idx }

def Activities.Starts (s : Activities σ) : Prop :=
  s.env.control.nest = 0 ∧ s.env.control.forNest = 0 ∧ s.env.control.whileNest = 0 ∧
    s.entered = ⟨[], [], []⟩

/-! ## What the activities rely on -/

def nextBy (l : ForLoop) (p : Running σ) : ℕ × Running σ :=
  let (_, name, p) := getToken lang p
  let c := p.env.control
  match lang.variableGet .user p.programIdx name p.env.user with
  | none => (1, p)
  | some value =>
      let x := nextValue value l.step
      if x ≤ l.limit then
        (0, setProgramTokenIdx l.idx
          (p.setUser (lang.variablePut .user p.programIdx name (intText x) p.env.user)))
      else (0, p.setControl { c with forNest := c.forNest - 1 })

/-- The next command of an activity, if it is a `return`, an `end_while` or a `next`, goes on just
after the last gosub, with the last `while` or with the last `for` of that activity. -/
structure Activities.Continues (s : Activities σ) (a : ℕ) : Prop where
  return_ : ∀ i idx, (turn lang (s.running tokens a)).dispatched = some (i, .return_) →
    own a s.entered.calls = some idx →
      (turn lang (s.running tokens a)).after = .go ∧
        (turn lang (s.running tokens a)).program.programIdx = idx
  endWhile : ∀ i idx, (turn lang (s.running tokens a)).dispatched = some (i, .endWhile) →
    own a s.entered.whiles = some idx →
      (turn lang (s.running tokens a)).after = .go ∧
        (turn lang (s.running tokens a)).program.programIdx = idx
  next : ∀ i l, (turn lang (s.running tokens a)).dispatched = some (i, .next) →
    own a s.entered.fors = some l →
      command lang .next (getToken lang (s.running tokens a)).2.2 =
        some (noWait (nextBy lang l (getToken lang (s.running tokens a)).2.2))

/-- A command is in order: a `return`, an `end_while` and a `next` find something of their own
activity entered last; a `break_loop` leaves a `while` of its own activity, and no `for`; a `for`
and a `while` have no error; and a command without control flow leaves the counters alone. -/
def Entered.InOrder (e : Entered) (a : ℕ) (type : TokenType) (q : Running σ)
    (r : CommandResult σ) : Prop :=
  match type with
  | .return_ => Last a e.calls
  | .next => e.fors ≠ [] ∧ Last a e.fors
  | .endWhile => Last a e.whiles
  | .breakLoop =>
      breakEnd q ≠ .next ∧ (breakEnd q = .endWhile → e.whiles ≠ [] ∧ Last a e.whiles)
  | .for_ | .while_ => r.iret = 0
  | type => type.isPlainCommand → q.env.control.Keeps r.program.env.control

def Entered.Only (e : Entered) (a : ℕ) : Prop :=
  (∀ x ∈ e.calls, x.1 = a) ∧ (∀ x ∈ e.fors, x.1 = a) ∧ ∀ x ∈ e.whiles, x.1 = a

/-- The next command of an activity is in order, or has an error that is not handled while nothing
is entered by other activities. -/
def Activities.InOrder (s : Activities σ) : ActivityOp σ → Prop
  | .turn a =>
      let q := (getToken lang (s.running tokens a)).2.2
      ∀ i type r, (turn lang (s.running tokens a)).dispatched = some (i, type) →
        command lang type q = some r →
          if r.unhandled lang then s.entered.Only a else s.entered.InOrder a type q r
  | .place .. => True

end

end ScOpen
