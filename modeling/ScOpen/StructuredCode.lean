import ScOpen.Execute

/-!
# Structured programs

A structured program is a tree of statements, `if` chains, loops, the two commands that leave a
loop, and calls of other such trees. The interpreter sees only its tokens. Every scan over tokens
that it makes goes over a whole tree without a change, because the tree's brackets are in pairs.
-/

namespace ScOpen

def TokenType.isScanned : TokenType → Bool
  | .nullToken | .after_ | .begin_ | .end_ | .label | .if_ | .else_ | .elseIf | .endIf
  | .while_ | .endWhile | .for_ | .next => true
  | _ => false

/-- Tokens that a scan goes over: they have no control commands, apart from the loops that may be
inside of a message. -/
inductive Neutral : List Token → Prop
  | nil : Neutral []
  | token {t : Token} {ts : List Token} (ht : t.type.isScanned = false) (hts : Neutral ts) :
      Neutral (t :: ts)
  | loop {f n : Token} {ts us : List Token} (hf : f.type = .for_) (hn : n.type = .next)
      (hts : Neutral ts) (hus : Neutral us) : Neutral (f :: (ts ++ n :: us))

structure Expr (σ : Type) where
  tokens : List Token
  neutral : Neutral tokens
  eval : σ → Option (Bytes × σ)

def Expr.test {σ : Type} (e : Expr σ) (user : σ) : Option (Bool × σ) :=
  (e.eval user).map fun (value, user) => (scanInt value ≠ 0, user)

def TokenType.isControl : TokenType → Bool
  | .if_ | .else_ | .elseIf | .while_ | .endWhile | .for_ | .next | .continue_ | .breakLoop
  | .gosub | .return_ => true
  | _ => false

/-- A command without control flow, its index in the program, and what it does; `none` when it
fails, waits or ends the process. -/
structure Statement (σ : Type) where
  place : ℕ
  head : Token
  args : List Token
  isControl : head.type.isControl = false
  neutral : Neutral (head :: args)
  run : σ → Option σ

structure Call (σ : Type) where
  args : List Token
  neutral : Neutral args
  target : ℕ
  run : σ → Option σ

/-- Tokens that the interpreter passes over in one turn: ends of lines, or an error clause. -/
structure Filler where
  tokens : List Token
  shape : (∃ t, tokens = [t] ∧ t.type ∈ [.lineNumber, .endOfLine, .noError, .then_]) ∨
    ∃ t x y, tokens = [t, x, y] ∧ t.type = .error_ ∧ x.type.isScanned = false ∧
      y.type.isScanned = false

structure ForHead (σ : Type) where
  name : Bytes
  first : Expr σ
  limit : Expr σ
  step : Option (Expr σ)
  put : Bytes → σ → σ
  get : σ → Option Bytes

def ForHead.tokens {σ : Type} (h : ForHead σ) : List Token :=
  word h.name :: mark .assign rfl :: (h.first.tokens ++ mark .to_ rfl :: (h.limit.tokens ++
    (h.step.elim [] fun e => mark .step rfl :: e.tokens)))

mutual

inductive Code (σ : Type) where
  | done
  | filler (f : Filler) (next : Code σ)
  | statement (s : Statement σ) (next : Code σ)
  | ifThen (c : Expr σ) (body : Code σ) (rest : Branches σ) (next : Code σ)
  | whileLoop (c : Expr σ) (body next : Code σ)
  | forLoop (h : ForHead σ) (body next : Code σ)
  | continue_ (next : Code σ)
  | breakLoop (next : Code σ)
  | call (c : Call σ) (next : Code σ)
  | return_ (next : Code σ)

inductive Branches (σ : Type) where
  | endIf
  | else_ (body : Code σ)
  | elseIf (c : Expr σ) (body : Code σ) (rest : Branches σ)

end

section

variable {σ : Type}

mutual

def Code.size : Code σ → ℕ
  | .done => 0
  | .filler f next => f.tokens.length + next.size
  | .statement s next => (s.args.length + 1) + next.size
  | .ifThen c body rest next => (c.tokens.length + 1) + body.size + rest.size + next.size
  | .whileLoop c body next => (c.tokens.length + 1) + body.size + 1 + next.size
  | .forLoop h body next => (h.tokens.length + 1) + body.size + 2 + next.size
  | .continue_ next => 1 + next.size
  | .breakLoop next => 1 + next.size
  | .call c next => (c.args.length + 1) + next.size
  | .return_ next => 1 + next.size

def Branches.size : Branches σ → ℕ
  | .endIf => 1
  | .else_ body => 1 + body.size + 1
  | .elseIf c body rest => (c.tokens.length + 1) + body.size + rest.size

end

variable (lang : Language σ) (tokens : List Token)

structure Expr.Stands (i : ℕ) (e : Expr σ) : Prop where
  present : e.tokens <+: tokens.drop i
  evaluates : ∀ user value user', e.eval user = some (value, user') →
    ∃ saved, lang.expression tokens i user = ⟨0, value, e.tokens.length, saved, user'⟩

/-- The statement stands at the index, and runs there to its end, without a change of the counters and
the numbered variables up to them. Its message may have loops. -/
structure Statement.Stands (i : ℕ) (s : Statement σ) : Prop where
  here : s.place = i
  present : (s.head :: s.args) <+: tokens.drop i
  runs : ∀ saved control user user', s.run user = some user' →
    ∃ saved' control', control.Keeps control' ∧
      turn lang ⟨tokens, i, saved, ⟨control, user⟩⟩ =
        ⟨some (i, s.head.type), .go, ⟨tokens, i + (s.args.length + 1), saved', ⟨control', user'⟩⟩⟩

structure Call.Stands (i : ℕ) (c : Call σ) : Prop where
  present : (mark .gosub rfl :: c.args) <+: tokens.drop i
  runs : ∀ saved control user user', c.run user = some user' →
    ∃ saved', turn lang ⟨tokens, i, saved, ⟨control, user⟩⟩ =
      ⟨some (i, .gosub), .go, ⟨tokens, c.target, saved',
        ⟨control.called (i + (c.args.length + 1)), user'⟩⟩⟩

structure ForHead.Stands (i j : ℕ) (h : ForHead σ) : Prop where
  present : h.tokens <+: tokens.drop i
  first : h.first.Stands lang tokens (i + 2)
  put : ∀ value user,
    lang.variablePut .user (i + 2 + h.first.tokens.length) h.name value user = h.put value user
  limit : h.limit.Stands lang tokens (i + 2 + h.first.tokens.length + 1)
  step : ∀ e ∈ h.step,
    e.Stands lang tokens (i + 2 + h.first.tokens.length + 1 + h.limit.tokens.length + 1)
  noStep : h.step = none → ∀ t,
    tokens[i + 2 + h.first.tokens.length + 1 + h.limit.tokens.length]? = some t → t.type ≠ .step
  next : [mark .next rfl, word h.name] <+: tokens.drop j
  get : ∀ user, lang.variableGet .user (j + 2) h.name user = h.get user
  putNext : ∀ value user, lang.variablePut .user (j + 2) h.name value user = h.put value user

mutual

/-- The code stands in the tokens from the index on, and its expressions and statements work. -/
def Code.Stands (i : ℕ) : Code σ → Prop
  | .done => True
  | .filler f next => f.tokens <+: tokens.drop i ∧ next.Stands (i + f.tokens.length)
  | .statement s next => s.Stands lang tokens i ∧ next.Stands (i + (s.args.length + 1))
  | .ifThen c body rest next =>
      [mark .if_ rfl] <+: tokens.drop i ∧ c.Stands lang tokens (i + 1) ∧
        body.Stands (i + (c.tokens.length + 1)) ∧
        rest.Stands (i + (c.tokens.length + 1) + body.size) ∧
        next.Stands (i + (c.tokens.length + 1) + body.size + rest.size)
  | .whileLoop c body next =>
      [mark .while_ rfl] <+: tokens.drop i ∧ c.Stands lang tokens (i + 1) ∧
        body.Stands (i + (c.tokens.length + 1)) ∧
        [mark .endWhile rfl] <+: tokens.drop (i + (c.tokens.length + 1) + body.size) ∧
        next.Stands (i + (c.tokens.length + 1) + body.size + 1)
  | .forLoop h body next =>
      [mark .for_ rfl] <+: tokens.drop i ∧
        h.Stands lang tokens (i + 1) (i + (h.tokens.length + 1) + body.size) ∧
        body.Stands (i + (h.tokens.length + 1)) ∧
        next.Stands (i + (h.tokens.length + 1) + body.size + 2)
  | .continue_ next => [mark .continue_ rfl] <+: tokens.drop i ∧ next.Stands (i + 1)
  | .breakLoop next => [mark .breakLoop rfl] <+: tokens.drop i ∧ next.Stands (i + 1)
  | .call c next => c.Stands lang tokens i ∧ next.Stands (i + (c.args.length + 1))
  | .return_ next => [mark .return_ rfl] <+: tokens.drop i ∧ next.Stands (i + 1)

def Branches.Stands (i : ℕ) : Branches σ → Prop
  | .endIf => [mark .endIf rfl] <+: tokens.drop i
  | .else_ body =>
      [mark .else_ rfl] <+: tokens.drop i ∧ body.Stands (i + 1) ∧
        [mark .endIf rfl] <+: tokens.drop (i + 1 + body.size)
  | .elseIf c body rest =>
      [mark .elseIf rfl] <+: tokens.drop i ∧ c.Stands lang tokens (i + 1) ∧
        body.Stands (i + (c.tokens.length + 1)) ∧
        rest.Stands (i + (c.tokens.length + 1) + body.size)

end

end

/-! ## Small programs -/

def countUp (place : ℕ) : Statement ℤ where
  place := place
  head := mark .let_ rfl
  args := []
  isControl := rfl
  neutral := .token rfl .nil
  run user := some (user + 1)

def countTokens : List Token :=
  [mark .while_ rfl, word [chr 'n'], mark .let_ rfl, mark .if_ rfl, word [chr 'n'],
    mark .continue_ rfl, mark .endIf rfl, mark .breakLoop rfl, mark .endWhile rfl]

def breakTokens : List Token :=
  [mark .for_ rfl, word [chr 'n'], mark .assign rfl, word [chr 'n'], mark .to_ rfl,
    word [chr 'n'], mark .breakLoop rfl, mark .next rfl, word [chr 'n']]

def sendTokens : List Token :=
  [mark .send rfl, word [chr 'h'], mark .period period_hasText, mark .endOfLine rfl, mark .let_ rfl]

def clauseTokens : List Token :=
  [mark .send rfl, word [chr 'h'], mark .period period_hasText, mark .error_ rfl, mark .assign rfl,
    word [chr 'l'], mark .endOfLine rfl, mark .let_ rfl]

def subTokens : List Token :=
  [mark .gosub rfl, word (cstr "m"), mark .endOfLine rfl, mark .end_ rfl,
    mark .let_ rfl, mark .return_ rfl,
    mark .gosub rfl, word (cstr "h"), mark .endOfLine rfl, mark .end_ rfl,
    mark .let_ rfl, mark .return_ rfl]

def reference (name : Bytes) : Token := ⟨.variable_, name, fun h => by cases h⟩

def loopTokens (first : Token) : List Token :=
  [mark .for_ rfl, word (cstr "i"), mark .assign rfl, first, mark .to_ rfl, word (cstr "2"),
    mark .endOfLine endOfLine_hasText, mark .lessThan lessThan_hasText, word (cstr "A"),
    word (cstr "x"), mark .greaterThan greaterThan_hasText, mark .next rfl, word (cstr "i"),
    mark .greaterThan greaterThan_hasText]

end ScOpen
