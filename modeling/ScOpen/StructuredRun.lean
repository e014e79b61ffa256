import ScOpen.StructuredScans

/-!
# Running structured programs

The meaning of a structured program as a tree: what is left to do is a piece of code inside of
blocks, one for each `if`, loop and call around it. No step looks at tokens or counters.
-/

namespace ScOpen

section

variable {σ : Type}

inductive Block (σ : Type) where
  | branch (rest : Branches σ) (next : Code σ)
  | whileLoop (c : Expr σ) (body next : Code σ)
  | forLoop (h : ForHead σ) (limit step : ℤ) (body next : Code σ)
  | call (next : Code σ)

def Block.next : Block σ → Code σ
  | .branch _ next | .whileLoop _ _ next | .forLoop _ _ _ _ next | .call next => next

structure Machine (σ : Type) where
  code : Code σ
  blocks : List (Block σ)
  user : σ

def innermostLoop : List (Block σ) → Option (Block σ × List (Block σ))
  | [] | .call _ :: _ => none
  | .branch _ _ :: blocks => innermostLoop blocks
  | block :: blocks => some (block, blocks)

def innermostCall : List (Block σ) → Option (Code σ × List (Block σ))
  | [] => none
  | .call next :: blocks => some (next, blocks)
  | _ :: blocks => innermostCall blocks

def Branches.choose (user : σ) : Branches σ → Option (Option (Code σ × Branches σ) × σ)
  | .endIf => some (none, user)
  | .else_ body => some (some (body, .endIf), user)
  | .elseIf c body rest =>
      match c.test user with
      | none => none
      | some (true, user) => some (some (body, rest), user)
      | some (false, user) => rest.choose user

def chooseBranch (c : Expr σ) (body : Code σ) (rest : Branches σ) (user : σ) :
    Option (Option (Code σ × Branches σ) × σ) :=
  match c.test user with
  | none => none
  | some (true, user) => some (some (body, rest), user)
  | some (false, user) => rest.choose user

structure Entry (σ : Type) where
  first : ℤ
  limit : ℤ
  step : ℤ
  user : σ

def ForHead.enter (h : ForHead σ) (user : σ) : Option (Entry σ) := do
  let (first, user) ← h.first.eval user
  let (limit, user) ← h.limit.eval (h.put first user)
  let (step, user) ← h.step.elim (some ([chr '1'], user)) (·.eval user)
  return ⟨scanInt first, scanInt limit, scanInt step, user⟩

/-- Among the tokens, no `next` comes last, before another one or before the name. -/
def nextFree (name : Bytes) : List Token → Bool
  | [] => true
  | [t] => t.type ≠ .nullToken ∧ t.type ≠ .next
  | t :: u :: ts =>
      t.type ≠ .nullToken ∧ (t.type = .next → u.type ≠ .next ∧ cString u.text ≠ cString name) ∧
        nextFree name (u :: ts)

/-- One step; `none` at the end, outside of a loop or a subroutine that should be left, at the
`next` of a loop whose variable is gone, and where an expression or a statement fails. The
subroutines are given by where they start. -/
def Machine.step (subs : ℕ → Option (Code σ)) (m : Machine σ) : Option (Machine σ) :=
  match m.code with
  | .done =>
      match m.blocks with
      | [] | .call _ :: _ => none
      | .branch _ next :: blocks => some ⟨next, blocks, m.user⟩
      | .whileLoop c body next :: blocks => some ⟨.whileLoop c body next, blocks, m.user⟩
      | .forLoop h limit step body next :: blocks =>
          (h.get m.user).map fun value =>
            if nextValue value step ≤ limit then
              ⟨body, .forLoop h limit step body next :: blocks,
                h.put (intText (nextValue value step)) m.user⟩
            else ⟨next, blocks, m.user⟩
  | .filler _ next => some ⟨next, m.blocks, m.user⟩
  | .statement s next => (s.run m.user).map fun user => ⟨next, m.blocks, user⟩
  | .ifThen c body rest next =>
      (chooseBranch c body rest m.user).map fun
        | (none, user) => ⟨next, m.blocks, user⟩
        | (some (body, rest), user) => ⟨body, .branch rest next :: m.blocks, user⟩
  | .whileLoop c body next =>
      (c.test m.user).map fun
        | (true, user) => ⟨body, .whileLoop c body next :: m.blocks, user⟩
        | (false, user) => ⟨next, m.blocks, user⟩
  | .forLoop h body next =>
      (h.enter m.user).map fun e =>
        if e.first > e.limit then ⟨next, m.blocks, e.user⟩
        else ⟨body, .forLoop h e.limit e.step body next :: m.blocks, e.user⟩
  | .continue_ _ =>
      (innermostLoop m.blocks).map fun (block, blocks) => ⟨.done, block :: blocks, m.user⟩
  | .breakLoop _ =>
      (innermostLoop m.blocks).map fun (block, blocks) => ⟨block.next, blocks, m.user⟩
  | .call c next => do
      let user ← c.run m.user
      let body ← subs c.target
      return ⟨body, .call next :: m.blocks, user⟩
  | .return_ _ => (innermostCall m.blocks).map fun (next, blocks) => ⟨next, blocks, m.user⟩

def Statement.dispatch (s : Statement σ) : Dispatch := (s.place, s.head.type)

def Machine.statement (m : Machine σ) : Option (Statement σ) :=
  match m.code with
  | .statement s _ => some s
  | _ => none

def Machine.steps (subs : ℕ → Option (Code σ)) :
    ℕ → Machine σ → Option (List (Statement σ) × Machine σ)
  | 0, m => some ([], m)
  | n + 1, m => do
      let m' ← m.step subs
      let (ss, r) ← Machine.steps subs n m'
      return (m.statement.toList ++ ss, r)

def Machine.Fails (m : Machine σ) : Prop :=
  match m.code with
  | .statement s _ => s.run m.user = none
  | .ifThen c body rest _ => chooseBranch c body rest m.user = none
  | .whileLoop c _ _ => c.test m.user = none
  | .forLoop h _ _ => h.enter m.user = none
  | .call c _ => c.run m.user = none
  | _ => False

/-! ## How the interpreter follows -/

def Block.isWhile : Block σ → Bool
  | .whileLoop _ _ _ => true
  | _ => false

def Block.isFor : Block σ → Bool
  | .forLoop _ _ _ _ _ => true
  | _ => false

def Block.isCall : Block σ → Bool
  | .call _ => true
  | _ => false

def whileDepth (blocks : List (Block σ)) : ℤ := blocks.countP Block.isWhile

def forDepth (blocks : List (Block σ)) : ℤ := blocks.countP Block.isFor

def callDepth (blocks : List (Block σ)) : ℤ := blocks.countP Block.isCall

structure Outside where
  calls : ℤ
  fors : ℤ
  whiles : ℤ
  finish : ℕ

variable (lang : Language σ) (tokens : List Token)

/-- The blocks stand in the tokens from the index on, and the numbered variables of each loop and
call are its own. -/
def BlocksStand (c : Control) (base : Outside) : ℕ → List (Block σ) → Prop
  | i, [] => i = base.finish
  | i, .branch rest next :: blocks =>
      rest.Stands lang tokens i ∧ next.Stands lang tokens (i + rest.size) ∧
        BlocksStand c base (i + rest.size + next.size) blocks
  | i, .whileLoop e body next :: blocks =>
      (∃ start, c.whileIdx (base.whiles + whileDepth blocks + 1) = some start ∧
        (Code.whileLoop e body next).Stands lang tokens start ∧
        i = start + (e.tokens.length + 1) + body.size) ∧
        BlocksStand c base (i + 1 + next.size) blocks
  | i, .forLoop h limit step body next :: blocks =>
      (∃ start, c.forIdx (base.fors + forDepth blocks + 1) = some (start + (h.tokens.length + 1)) ∧
        c.forTo (base.fors + forDepth blocks + 1) = some limit ∧
        c.forStep (base.fors + forDepth blocks + 1) = some step ∧
        (Code.forLoop h body next).Stands lang tokens start ∧
        i = start + (h.tokens.length + 1) + body.size) ∧
        BlocksStand c base (i + 2 + next.size) blocks
  | _, .call next :: blocks =>
      ∃ idx, c.returnIdx (base.calls + callDepth blocks + 1) = some idx ∧
        next.Stands lang tokens idx ∧ BlocksStand c base (idx + next.size) blocks

structure Follows (base : Outside) (m : Machine σ) (p : Running σ) : Prop where
  same : p.tokens = tokens
  code : m.code.Stands lang tokens p.programIdx
  blocks : BlocksStand lang tokens p.env.control base (p.programIdx + m.code.size) m.blocks
  user : p.env.user = m.user
  nest : p.env.control.nest = base.calls + callDepth m.blocks
  forNest : p.env.control.forNest = base.fors + forDepth m.blocks
  whileNest : p.env.control.whileNest = base.whiles + whileDepth m.blocks

def statements (ds : List Dispatch) : List Dispatch := ds.filter fun d => !d.2.isControl

def TurnFollows (base : Outside) (m m' : Machine σ) (p : Running σ) : Prop :=
  ∃ d q, turn lang p = ⟨d, .go, q⟩ ∧ Follows lang tokens base m' q ∧
    statements d.toList = m.statement.toList.map Statement.dispatch

def Machine.Proper (i : ℕ) (m : Machine σ) : Prop :=
  match m.code with
  | .forLoop h body _ => ∀ entry, h.enter m.user = some entry → entry.first > entry.limit →
      nextFree h.name ((tokens.drop (i + (h.tokens.length + 1))).take body.size) = true
  | .breakLoop _ => ∀ block rest, innermostLoop m.blocks = some (block, rest) →
      block.isFor = false
  | .return_ _ => ∀ next rest, innermostCall m.blocks = some (next, rest) →
      forDepth m.blocks = forDepth rest ∧ whileDepth m.blocks = whileDepth rest
  | _ => True

end

end ScOpen
