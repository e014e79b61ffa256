import ScOpen.EvaluateToken

/-!
# References in a token

A variable token is text with references in it. In the name of a reference, brackets may have
further references in them, which are evaluated first; square brackets belong to the name and braces
do not. More than one `$` in front of a name ask for the variable that the value names.
-/

namespace ScOpen

def isWord (c : UInt8) : Bool := isAlnum c || decide (c = chr '_' ∨ c = chr '.')

structure Word where
  c : UInt8
  isWord : isWord c = true

inductive Bracket where
  | square | brace

def Bracket.opening : Bracket → UInt8
  | .square => chr '['
  | .brace => chr '\x7b'

def Bracket.closing : Bracket → UInt8
  | .square => chr ']'
  | .brace => chr '\x7d'

def Bracket.shown : Bracket → UInt8 → Bytes
  | .square, c => [c]
  | .brace, _ => []

mutual

inductive Reference where
  | mk (more : ℕ) (first : NamePart) (rest : NameParts)

/-- A part of a name. In brackets, references come last, since they take all that goes on with a
name. -/
inductive NamePart where
  | char (w : Word)
  | bracket (b : Bracket) (inside : NameParts) (refs : References)

inductive NameParts where
  | nil
  | cons (p : NamePart) (ps : NameParts)

inductive References where
  | nil
  | cons (r : Reference) (refs : References)

end

mutual

def Reference.token : Reference → Bytes
  | .mk more first rest =>
      List.replicate more (chr '$') ++ chr '$' :: (first.token ++ rest.token)

def NamePart.token : NamePart → Bytes
  | .char w => [w.c]
  | .bracket b inside refs => b.opening :: (inside.token ++ refs.token ++ [b.closing])

def NameParts.token : NameParts → Bytes
  | .nil => []
  | .cons p ps => p.token ++ ps.token

def References.token : References → Bytes
  | .nil => []
  | .cons r refs => r.token ++ refs.token

end

def variableValue (variableGet : Bytes → Option Bytes) (name : Bytes) : Bytes :=
  (variableGet name).getD []

section

variable (variableGet : Bytes → Option Bytes)

mutual

def Reference.value : Reference → Bytes
  | .mk more first rest => (variableValue variableGet)^[more + 1] (first.name ++ rest.name)

def NamePart.name : NamePart → Bytes
  | .char w => [w.c]
  | .bracket b inside refs =>
      b.shown b.opening ++ (inside.name ++ refs.values ++ b.shown b.closing)

def NameParts.name : NameParts → Bytes
  | .nil => []
  | .cons p ps => p.name ++ ps.name

def References.values : References → Bytes
  | .nil => []
  | .cons r refs => r.value ++ refs.values

end

end

structure Literal where
  c : UInt8
  isNameChar : isNameChar c = true
  ne_dollar : c ≠ chr '$'

inductive TokenItem where
  | literal (l : Literal)
  | reference (r : Reference)

def TokenItem.token : TokenItem → Bytes
  | .literal l => [l.c]
  | .reference r => r.token

def TokenItem.value (variableGet : Bytes → Option Bytes) : TokenItem → Bytes
  | .literal l => [l.c]
  | .reference r => r.value variableGet

def isClosing (c : UInt8) : Bool := decide (c = chr ']' ∨ c = chr '\x7d')

def EndsName : List TokenItem → Prop
  | .literal l :: _ => isClosing l.c = true
  | _ => True

def Delimited : List TokenItem → Prop
  | [] => True
  | .literal _ :: items => Delimited items
  | .reference _ :: items => EndsName items ∧ Delimited items

structure VariableToken where
  items : List TokenItem
  delimited : Delimited items

def VariableToken.token (t : VariableToken) : Bytes := t.items.flatMap TokenItem.token

def VariableToken.value (variableGet : Bytes → Option Bytes) (t : VariableToken) : Bytes :=
  t.items.flatMap (TokenItem.value variableGet)

/-- The variables that a program sees. Their values have no terminator in them. -/
structure UserVariables where
  get : Bytes → Option Bytes
  zero_notMem : ∀ name v, get name = some v → 0 ∉ v

theorem UserVariables.zero_notMem_value (vars : UserVariables) (name : Bytes) :
    0 ∉ variableValue vars.get name := by
  cases hget : vars.get name with
  | none => simp [variableValue, hget]
  | some v => simpa [variableValue, hget] using vars.zero_notMem name v hget

/-! ## Values that stay as they are -/

def isIndexFrom : ℕ → Bytes → Bool
  | depth, [] => depth == 0
  | depth, c :: v =>
      if c = chr '[' then isIndexFrom (depth + 1) v
      else if c = chr ']' then decide (0 < depth) && isIndexFrom (depth - 1) v
      else isWord c && isIndexFrom depth v

def IsIndex (v : Bytes) : Prop := isIndexFrom 0 v = true

instance : DecidablePred IsIndex := fun v => inferInstanceAs (Decidable (isIndexFrom 0 v = true))

/-- The brackets that are open behind a text; `none` where one is closed that is not open. -/
def openBrackets : ℕ → Bytes → Option ℕ
  | depth, [] => some depth
  | depth, c :: text =>
      if c = chr '[' ∨ c = chr '\x7b' then openBrackets (depth + 1) text
      else if isClosing c then
        if 0 < depth then openBrackets (depth - 1) text else none
      else openBrackets depth text

def Clear (left : Bytes) : Prop :=
  ∃ depth, openBrackets 0 left = some depth ∧ (depth = 0 → chr '[' ∉ left ∧ chr ']' ∉ left)

section

variable (variableGet : Bytes → Option Bytes)

def ChainKept (followed : Bool) : ℕ → Bytes → Prop
  | 0, _ => True
  | more + 1, name =>
      IsIndex (variableValue variableGet name) ∧
        (followed = true → variableValue variableGet name ≠ []) ∧
        ChainKept followed more (variableValue variableGet name)

def Reference.name : Reference → Bytes
  | .mk _ first rest => first.name variableGet ++ rest.name variableGet

def References.any : References → Bool
  | .nil => false
  | .cons _ _ => true

mutual

/-- All values in the names of a reference are indices; `followed` is whether another reference
comes next. -/
def Reference.Kept (followed : Bool) : Reference → Prop
  | .mk more first rest => first.Kept ∧ rest.Kept ∧
      ChainKept variableGet followed more (first.name variableGet ++ rest.name variableGet)

def NamePart.Kept : NamePart → Prop
  | .char _ => True
  | .bracket _ inside refs => inside.Kept ∧ refs.Kept

def NameParts.Kept : NameParts → Prop
  | .nil => True
  | .cons p ps => p.Kept ∧ ps.Kept

def References.Kept : References → Prop
  | .nil => True
  | .cons r refs => r.Kept refs.any ∧ IsIndex (r.value variableGet) ∧ refs.Kept

end

def startsReference : List TokenItem → Bool
  | .reference _ :: _ => true
  | _ => false

/-- Every reference is found behind the text on its left, and its value comes back as it was. -/
def ItemsKept : Bytes → List TokenItem → Prop
  | _, [] => True
  | left, .literal l :: items => ItemsKept (left ++ [l.c]) items
  | left, .reference r :: items =>
      Clear left ∧ r.Kept variableGet (startsReference items) ∧
        (startsReference items = true → openBrackets 0 left = some 0 → r.name variableGet ≠ []) ∧
        255 ∉ r.value variableGet ∧ ItemsKept (left ++ r.value variableGet) items

def VariableToken.Kept (t : VariableToken) : Prop := ItemsKept variableGet [] t.items

end

end ScOpen
