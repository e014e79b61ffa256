import ScOpen.Agreement
import ScOpen.MessageMarks
import ScOpen.StructuredFors

/-!
# Lists with loops

The body of a list has items, further lists, lines and loops in any nesting. One pass goes over it
as the loops say. Before a list is written another pass goes over it to count, so a pass that
writes finds variables that a count has set. The cells that may be set so are followed along the
pass: setting a loop's variable takes it out of them, and the count of a list inside puts the
variables of its loops in.
-/

namespace ScOpen

open Agreement

/-- What the encoder uses of the interpreter. Variables are looked up at `place`, because no label
begins inside of a message. A `next` that ends the process counts as an error. -/
def messageCommands {σ : Type} (lang : Language σ) (place : ℕ) : EncodeCommands (InterpEnv σ) where
  evaluateToken text env := (lang.evaluateToken place text env.user, env)
  cmdFor := cmdFor lang
  cmdNext p := (cmdNext lang p).getD (1, p)

/-- The variables of a program: the cell that a name stands for, and what is in a cell. -/
structure Variables (σ κ : Type) where
  cell : Bytes → κ
  value : κ → σ → Option Bytes

/-! ## The body of a list -/

structure LineToken where
  token : Token
  isLine : token.type = .endOfLine ∨ token.type = .lineNumber

def TokenType.isValue : TokenType → Bool
  | .nullToken | .lessThan | .greaterThan | .for_ | .next => false
  | _ => true

inductive ValueTokens (minus : Bool) : List Token → Prop
  | nil : ValueTokens minus []
  | one {t : Token} {ts : List Token} (ht : t.type.isValue = true)
      (hminus : minus = true → t.type ≠ .minus) (hts : ValueTokens minus ts) :
      ValueTokens minus (t :: ts)
  | signed {m t : Token} {ts : List Token} (hminus : minus = true) (hm : m.type = .minus)
      (ht : t.type.isValue = true) (hts : ValueTokens minus ts) : ValueTokens minus (m :: t :: ts)

structure DataItem where
  gap : List LineToken
  type : SecsType
  isData : type ≠ .list
  word : Token
  isWord : word.IsWord
  named : ∀ scan, branchOf scan word.text = .item type type.minus (type.convert scan)
  values : List Token
  areValues : ValueTokens type.minus values

def DataItem.tokens (d : DataItem) : List Token :=
  mark .lessThan lessThan_hasText :: (d.gap.map LineToken.token ++ d.word :: (d.values ++
    [mark .greaterThan greaterThan_hasText]))

structure ListWord where
  gap : List LineToken
  word : Token
  isWord : word.IsWord
  named : firstByte word.text = chr 'L'

def ListWord.tokens (w : ListWord) : List Token :=
  mark .lessThan lessThan_hasText :: (w.gap.map LineToken.token ++ [w.word])

inductive ListBody (σ : Type) where
  | done
  | line (l : LineToken) (next : ListBody σ)
  | item (d : DataItem) (next : ListBody σ)
  | list (w : ListWord) (kids next : ListBody σ)
  | forLoop (h : ForHead σ) (body next : ListBody σ)

section

variable {σ κ : Type}

def ListBody.tokens : ListBody σ → List Token
  | .done => []
  | .line l next => l.token :: next.tokens
  | .item d next => d.tokens ++ next.tokens
  | .list w kids next =>
      w.tokens ++ (kids.tokens ++ mark .greaterThan greaterThan_hasText :: next.tokens)
  | .forLoop h body next =>
      mark .for_ for_hasText :: (h.tokens ++
        (body.tokens ++ mark .next next_hasText :: word h.name :: next.tokens))

variable (vars : Variables σ κ) (lang : Language σ) (tokens : List Token)

structure ForHead.Sets (h : ForHead σ) : Prop where
  get : ∀ u, h.get u = vars.value (vars.cell h.name) u
  writes : Writes vars.value (vars.cell h.name) h.put

/-- The body stands in the tokens from the index on, and the heads of its loops work. -/
def ListBody.Stands (i : ℕ) : ListBody σ → Prop
  | .done => True
  | .line l next => [l.token] <+: tokens.drop i ∧ next.Stands (i + 1)
  | .item d next => d.tokens <+: tokens.drop i ∧ next.Stands (i + d.tokens.length)
  | .list w kids next =>
      w.tokens <+: tokens.drop i ∧ kids.Stands (i + w.tokens.length) ∧
        [mark .greaterThan greaterThan_hasText] <+:
          tokens.drop (i + w.tokens.length + kids.tokens.length) ∧
        next.Stands (i + w.tokens.length + kids.tokens.length + 1)
  | .forLoop h body next =>
      [mark .for_ for_hasText] <+: tokens.drop i ∧ h.Sets vars ∧
        h.Stands lang tokens (i + 1) (i + (h.tokens.length + 1) + body.tokens.length) ∧
        body.tokens <+: tokens.drop (i + (h.tokens.length + 1)) ∧
        body.Stands (i + (h.tokens.length + 1)) ∧
        next.Stands (i + (h.tokens.length + 1) + body.tokens.length + 2)

/-! ## A pass over a body -/

/-- The expression has the value in every state that agrees with `u` off `D`, and leaves the
variables alone. -/
def Expr.Settled (D : Set κ) (u : σ) (e : Expr σ) (value : Bytes) : Prop :=
  ∀ v, AgreeOff vars.value D u v →
    ∃ v', e.eval v = some (value, v') ∧ AgreeOff vars.value ∅ v v'

structure ForHead.Settled (D : Set κ) (u : σ) (h : ForHead σ) (first : Bytes) (limit step : ℤ) :
    Prop where
  settled : h.first.Settled vars D u first
  settledLimit : ∃ value, h.limit.Settled vars (D \ {vars.cell h.name}) (h.put first u) value ∧
    scanInt value = limit
  settledStep : h.step.elim (scanInt [chr '1'] = step) fun e =>
    ∃ value, e.Settled vars (D \ {vars.cell h.name}) (h.put first u) value ∧ scanInt value = step

inductive Task (σ : Type) where
  | body (b : ListBody σ)
  | rounds (h : ForHead σ) (limit step : ℤ) (b : ListBody σ)

/-- A pass from the state `u` to the state `u'` over items of which `k` are at the task's own level.
`D` are the cells that a count has set and the pass has not, and `S` those that it sets. No bound
depends on a cell of the first kind. -/
inductive Pass : Set κ → Task σ → σ → Set κ → ℕ → σ → Prop
  | done {D : Set κ} {u : σ} : Pass D (.body .done) u ∅ 0 u
  | line {D S : Set κ} {u u' : σ} {k : ℕ} {l : LineToken} {next : ListBody σ}
      (hnext : Pass D (.body next) u S k u') : Pass D (.body (.line l next)) u S k u'
  | item {D S : Set κ} {u u' : σ} {k : ℕ} {d : DataItem} {next : ListBody σ}
      (hnext : Pass D (.body next) u S k u') : Pass D (.body (.item d next)) u S (k + 1) u'
  | list {D S S₁ : Set κ} {u u₁ u' : σ} {j k : ℕ} {w : ListWord} {kids next : ListBody σ}
      (hkids : Pass (D ∪ S) (.body kids) u S j u₁)
      (hnext : Pass (D \ S) (.body next) u₁ S₁ k u') :
      Pass D (.body (.list w kids next)) u (S ∪ S₁) (k + 1) u'
  | skip {D S : Set κ} {u u' : σ} {k : ℕ} {h : ForHead σ} {body next : ListBody σ}
      {first : Bytes} {limit step : ℤ} (hhead : h.Settled vars D u first limit step)
      (hskip : scanInt first > limit) (hfree : nextFree h.name body.tokens = true)
      (hnext : Pass (D \ {vars.cell h.name}) (.body next) (h.put first u) S k u') :
      Pass D (.body (.forLoop h body next)) u ({vars.cell h.name} ∪ S) k u'
  | enter {D S S₁ : Set κ} {u u₁ u' : σ} {j k : ℕ} {h : ForHead σ} {body next : ListBody σ}
      {first : Bytes} {limit step : ℤ} (hhead : h.Settled vars D u first limit step)
      (hle : ¬scanInt first > limit)
      (hrounds : Pass (D \ {vars.cell h.name}) (.rounds h limit step body) (h.put first u) S j u₁)
      (hnext : Pass ((D \ {vars.cell h.name}) \ S) (.body next) u₁ S₁ k u') :
      Pass D (.body (.forLoop h body next)) u ({vars.cell h.name} ∪ (S ∪ S₁)) (j + k) u'
  | again {D S S₁ : Set κ} {u u₁ u' : σ} {j k : ℕ} {h : ForHead σ} {body : ListBody σ}
      {limit step : ℤ} {value : Bytes} (hbody : Pass D (.body body) u S j u₁)
      (hvalue : vars.value (vars.cell h.name) u₁ = some value)
      (hle : nextValue value step ≤ limit)
      (hrounds : Pass (D \ S) (.rounds h limit step body)
        (h.put (intText (nextValue value step)) u₁) S₁ k u') :
      Pass D (.rounds h limit step body) u ({vars.cell h.name} ∪ (S ∪ S₁)) (j + k) u'
  | leave {D S : Set κ} {u u' : σ} {k : ℕ} {h : ForHead σ} {body : ListBody σ}
      {limit step : ℤ} {value : Bytes} (hbody : Pass D (.body body) u S k u')
      (hvalue : vars.value (vars.cell h.name) u' = some value)
      (hlt : ¬nextValue value step ≤ limit) : Pass D (.rounds h limit step body) u S k u'

end

end ScOpen
