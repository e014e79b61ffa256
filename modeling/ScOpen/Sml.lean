import ScOpen.NumberText
import ScOpen.SecsItems
import ScOpen.ProgramTokens

/-!
# SML messages

The items of a message as a forest, the SECS-II bytes that stand for them, and the tokens that
they are written with: `< TYPE values >` for an item with data, `< L items >` for a list, and
line breaks between items.
-/

namespace ScOpen

/-! ## Values -/

/-- How the sign of a number is written: not at all, as a token of its own in front of the
number, or as the first character of the number's text. -/
inductive Sign where
  | none
  | token
  | text
  deriving DecidableEq

structure Decimal where
  sign : Sign
  digits : Bytes
  digits_ne : digits ≠ []
  all_digits : ∀ c ∈ digits, IsDigit c

def Decimal.value (d : Decimal) : ℤ :=
  if d.sign = .none then decimalValue d.digits else -(decimalValue d.digits : ℤ)

inductive IntegerType where
  | unsigned1 | unsigned2 | unsigned4 | unsigned8
  | signed1 | signed2 | signed4 | signed8
  deriving DecidableEq

def IntegerType.elementType : IntegerType → ElementType
  | .unsigned1 => .unsigned1
  | .unsigned2 => .unsigned2
  | .unsigned4 => .unsigned4
  | .unsigned8 => .unsigned8
  | .signed1 => .signed1
  | .signed2 => .signed2
  | .signed4 => .signed4
  | .signed8 => .signed8

def IntegerType.width (t : IntegerType) : ℕ := t.elementType.width

def IntegerType.signed : IntegerType → Bool
  | .unsigned1 | .unsigned2 | .unsigned4 | .unsigned8 => false
  | .signed1 | .signed2 | .signed4 | .signed8 => true

def IntegerType.InRange (t : IntegerType) (v : ℤ) : Prop :=
  if t.signed then -(256 ^ t.width : ℤ) ≤ 2 * v ∧ 2 * v < 256 ^ t.width
  else 0 ≤ v ∧ v < 256 ^ t.width

instance (t : IntegerType) (v : ℤ) : Decidable (t.InRange v) := by
  unfold IntegerType.InRange
  infer_instance

def integerBytes (width : ℕ) (v : ℤ) : Bytes := beBytes width (v % 256 ^ width).toNat

@[simp] theorem length_integerBytes (width : ℕ) (v : ℤ) : (integerBytes width v).length = width :=
  length_beBytes _ _

inductive Leaf where
  | ascii (text : Bytes)
  | binary (bytes : Bytes)
  | boolean (bs : List Bool)
  | integers (t : IntegerType) (vs : List Decimal)

def Leaf.secsType : Leaf → SecsType
  | .ascii _ => .ascii
  | .binary _ => .elements .binary
  | .boolean _ => .elements .boolean
  | .integers t _ => .elements t.elementType

def Leaf.data : Leaf → Bytes
  | .ascii text => text
  | .binary bytes => bytes
  | .boolean bs => bs.map fun b => if b then 1 else 0
  | .integers t vs => vs.flatMap fun d => integerBytes t.width d.value

theorem length_flatMap_const {α : Type} (f : α → Bytes) (w : ℕ) (vs : List α)
    (h : ∀ v ∈ vs, (f v).length = w) : (vs.flatMap f).length = w * vs.length := by
  induction vs with
  | nil => rfl
  | cons v vs ih =>
      rw [List.flatMap_cons, List.length_append, h v (by simp), List.length_cons,
        ih fun v' hv' => h v' (by simp [hv'])]
      ring

theorem Leaf.holdsData (v : Leaf) : v.secsType.HoldsData v.data.length := by
  cases v with
  | ascii text => trivial
  | binary bytes => exact one_dvd _
  | boolean bs => exact one_dvd _
  | integers t vs =>
      have hlen := length_flatMap_const (fun d : Decimal => integerBytes t.width d.value) t.width vs
        fun d _ => length_integerBytes _ _
      exact ⟨vs.length, hlen⟩

/-! ## Items -/

/-- Items one after another: none, or a list with its items, or an item with data, and then the
items after it. -/
inductive Sml where
  | done
  | list (kids next : Sml)
  | leaf (v : Leaf) (next : Sml)

def Sml.count : Sml → ℕ
  | .done => 0
  | .list _ next => next.count + 1
  | .leaf _ next => next.count + 1

def minLengthBytes (size : ℕ) : ℕ := if size < 256 then 1 else if size < 256 ^ 2 then 2 else 3

def minHeader (t : SecsType) (size : ℕ) : Bytes := headerBytes t (minLengthBytes size) size

def Sml.encode : Sml → Bytes
  | .done => []
  | .list kids next => minHeader .list kids.count ++ kids.encode ++ next.encode
  | .leaf v next => minHeader v.secsType v.data.length ++ v.data ++ next.encode

/-- Every list has less than `2 ^ 24` items and every other item less than `2 ^ 24` bytes. -/
def Sml.SizesFit : Sml → Prop
  | .done => True
  | .list kids next => kids.count < 2 ^ 24 ∧ kids.SizesFit ∧ next.SizesFit
  | .leaf v next => v.data.length < 2 ^ 24 ∧ next.SizesFit

/-- Every item is inside at most `bound` lists, given that these are inside `level` lists. -/
def Sml.NestingFits (bound : ℕ) : ℕ → Sml → Prop
  | _, .done => True
  | level, .list kids next =>
      level ≤ bound ∧ kids.NestingFits bound (level + 1) ∧ next.NestingFits bound level
  | level, .leaf _ next => level ≤ bound ∧ next.NestingFits bound level

def Sml.All (P : Leaf → Prop) : Sml → Prop
  | .done => True
  | .list kids next => kids.All P ∧ next.All P
  | .leaf v next => P v ∧ next.All P

theorem minLengthBytes_mem (size : ℕ) : minLengthBytes size ∈ [1, 2, 3] := by
  unfold minLengthBytes
  split
  · decide
  · split <;> decide

theorem lt_pow_minLengthBytes {size : ℕ} (h : size < 2 ^ 24) :
    size < 256 ^ minLengthBytes size := by
  unfold minLengthBytes
  split
  · assumption
  · split
    · assumption
    · omega

/-- The encoding of items that fit their length bytes is well formed. -/
theorem Sml.items_encode {f : Sml} (h : f.SizesFit) : Items f.count f.encode := by
  induction f with
  | done => exact .nil
  | list kids next ihkids ihnext =>
      exact .list (minLengthBytes_mem _) (lt_pow_minLengthBytes h.1) (ihkids h.2.1)
        (ihnext h.2.2)
  | leaf v next ih =>
      exact .data (minLengthBytes_mem _) (lt_pow_minLengthBytes h.1) v.holdsData (ih h.2)

/-! ## Tokens -/

def Token.IsWord (w : Token) : Prop :=
  w.type = .number ∨ w.type = .constant ∨ w.type = .identifier ∨ w.type = .string

inductive HexText : UInt8 → Bytes → Prop where
  | one {a : ℕ} (ha : a < 16) : HexText (UInt8.ofNat a) [hexDigit a]
  | two {a b : ℕ} (ha : a < 16) (hb : b < 16) :
      HexText (UInt8.ofNat (a * 16 + b)) [hexDigit a, hexDigit b]

def BooleanText (b : Bool) (text : Bytes) : Prop :=
  if b then firstByte text = chr 'T' ∨ firstByte text = chr '1'
  else firstByte text = chr 'F' ∨ firstByte text = chr '0'

inductive DecimalTokens : List Decimal → List Token → Prop where
  | nil : DecimalTokens [] []
  | plain {d : Decimal} {ds : List Decimal} {w : Token} {ws : List Token} (hsign : d.sign = .none)
      (hw : w.IsWord) (htext : w.text = d.digits) (hnext : DecimalTokens ds ws) :
      DecimalTokens (d :: ds) (w :: ws)
  | minusToken {d : Decimal} {ds : List Decimal} {m w : Token} {ws : List Token}
      (hsign : d.sign = .token) (hm : m.type = .minus) (hw : w.IsWord)
      (htext : w.text = d.digits) (hnext : DecimalTokens ds ws) :
      DecimalTokens (d :: ds) (m :: w :: ws)
  | minusText {d : Decimal} {ds : List Decimal} {w : Token} {ws : List Token}
      (hsign : d.sign = .text) (hw : w.IsWord) (htext : w.text = chr '-' :: d.digits)
      (hnext : DecimalTokens ds ws) : DecimalTokens (d :: ds) (w :: ws)

inductive LeafTokens : Leaf → List Token → Prop where
  | ascii {ws : List Token} (hws : ∀ w ∈ ws, w.IsWord) :
      LeafTokens (.ascii (ws.flatMap (·.text))) ws
  | binary {bytes : Bytes} {ws : List Token}
      (hws : List.Forall₂ (fun b w => w.IsWord ∧ HexText b w.text) bytes ws) :
      LeafTokens (.binary bytes) ws
  | boolean {bs : List Bool} {ws : List Token}
      (hws : List.Forall₂ (fun b w => w.IsWord ∧ BooleanText b w.text) bs ws) :
      LeafTokens (.boolean bs) ws
  | integers {t : IntegerType} {vs : List Decimal} {ws : List Token}
      (hws : DecimalTokens vs ws) : LeafTokens (.integers t vs) ws

def SecsType.word : SecsType → Bytes
  | .list => cstr "L"
  | .ascii => cstr "A"
  | .elements .binary => cstr "B"
  | .elements .boolean => cstr "BO"
  | .elements .unsigned1 => cstr "U1"
  | .elements .unsigned2 => cstr "U2"
  | .elements .unsigned4 => cstr "U4"
  | .elements .unsigned8 => cstr "U8"
  | .elements .signed1 => cstr "I1"
  | .elements .signed2 => cstr "I2"
  | .elements .signed4 => cstr "I4"
  | .elements .signed8 => cstr "I8"
  | .elements .float4 => cstr "F4"
  | .elements .float8 => cstr "F8"

inductive Renders : Sml → List Token → Prop where
  | done : Renders .done []
  | list {kids next : Sml} {lt w gt : Token} {ts us : List Token} (hlt : lt.type = .lessThan)
      (hw : w.IsWord) (hword : w.text = SecsType.word .list) (hgt : gt.type = .greaterThan)
      (hkids : Renders kids ts) (hnext : Renders next us) :
      Renders (.list kids next) (lt :: w :: (ts ++ gt :: us))
  | leaf {v : Leaf} {next : Sml} {lt w gt : Token} {ts us : List Token}
      (hlt : lt.type = .lessThan) (hw : w.IsWord) (hword : w.text = v.secsType.word)
      (hgt : gt.type = .greaterThan) (hts : LeafTokens v ts) (hnext : Renders next us) :
      Renders (.leaf v next) (lt :: w :: (ts ++ gt :: us))
  | lineBreak {f : Sml} {eol number : Token} {ts : List Token} (heol : eol.type = .endOfLine)
      (hnumber : number.type = .lineNumber) (hf : Renders f ts) :
      Renders f (eol :: number :: ts)

end ScOpen
