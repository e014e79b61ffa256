import Mathlib.Algebra.Order.Ring.Abs
import ScOpen.PlainExpressions
import ScOpen.SecsEncodeRight

/-!
# Arithmetic on whole numbers

Two whole numbers are calculated with as `int`s, `abs()` and `mod()` with `unsigned int`s. The
texts of numbers have any length, so what is read need not be what is written, and what is
calculated need not fit.
-/

namespace ScOpen.Expression

/-! ## The operators and functions -/

inductive Outcome where
  | value (text : Bytes)
  | error
  | trap
  deriving DecidableEq

/-- `sscanf("%d%10s")` finds a number and nothing behind it. -/
def isint (p : Bytes) : Bool :=
  let p := (cString p).dropWhile isSpace
  let sign := firstByte p = chr '-' ∨ firstByte p = chr '+'
  let p := if sign then p.tail else p
  let junk := p.dropWhile fun c => IsDigit c
  IsDigit (firstByte p) ∧ junk.dropWhile isSpace = []

/-- The `int` that is left of a number. -/
def int32 (v : ℤ) : ℤ := Int.bmod v (2 ^ 32)

/-- The arithmetic on `int`s in `add_sub_mult_div()`. A quotient that is no `int` is a trap of the
division. -/
def intArithmetic (type : TokenType) (i1 i2 : ℤ) : Outcome :=
  match type with
  | .plus => .value (intText (int32 (i1 + i2)))
  | .minus => .value (intText (int32 (i2 - i1)))
  | .mult => .value (intText (int32 (i1 * i2)))
  | .divide =>
      if i1 = 0 then .error
      else if i2 = -2 ^ 31 ∧ i1 = -1 then .trap
      else .value (intText (i2.tdiv i1))
  | _ => .value []

def addSubMultDiv (floats : TokenType → Bytes → Bytes → Outcome) (gSyntaxCheck : Bool)
    (type : TokenType) (arg1 arg2 : Bytes) : Outcome :=
  if gSyntaxCheck then .value (cstr "0")
  else if isint arg1 ∧ isint arg2 then intArithmetic type (scanInt arg1) (scanInt arg2)
  else floats type arg1 arg2

/-- The `%u` of `sscanf()` for a number that is 0 before. -/
def scanUnsignedOrZero (text : Bytes) : ℕ := ((scanUnsigned (cString text)).map (·.1)).getD 0

/-- `TT_ABS` in `solve_function()`. -/
def solveAbs (arg0 : Bytes) : Outcome := .value (decimal (scanUnsignedOrZero arg0))

/-- `TT_MOD` in `solve_function()`. The last argument is the first one here. -/
def solveMod (arg0 arg1 : Bytes) : Outcome :=
  let y := scanUnsignedOrZero arg0
  if y = 0 then .error
  else
    let x := scanUnsignedOrZero arg1
    .value (intText (int32 ((x % y : ℕ) : ℤ)))

/-! ## Numbers of any length -/

structure IntegerText where
  negative : Bool
  digits : Bytes
  digits_ne : digits ≠ []
  all_digits : ∀ c ∈ digits, IsDigit c

def IntegerText.text (d : IntegerText) : Bytes :=
  if d.negative then chr '-' :: d.digits else d.digits

def IntegerText.value (d : IntegerText) : ℤ :=
  if d.negative then -(decimalValue d.digits : ℤ) else decimalValue d.digits

def IntegerText.ofNat (n : ℕ) : IntegerText :=
  ⟨false, decimal n, decimal_ne_nil n, fun _ => isDigit_of_mem_decimal⟩

def Denotes (text : Bytes) (v : ℤ) : Prop := ∃ d : IntegerText, d.text = text ∧ d.value = v

theorem IntegerText.firstByte_digits (d : IntegerText) : IsDigit (firstByte d.digits) := by
  obtain ⟨c, ds, hds⟩ := List.exists_cons_of_ne_nil d.digits_ne
  rw [hds]
  exact d.all_digits c (hds ▸ List.mem_cons_self)

theorem IntegerText.firstByte_ne (d : IntegerText) :
    firstByte d.digits ≠ chr '-' ∧ firstByte d.digits ≠ chr '+' := by
  refine ⟨ne_minus_of_isDigit d.firstByte_digits, fun h => ?_⟩
  exact absurd (h ▸ d.firstByte_digits) (by decide)

/-- What is written is one number only. -/
theorem IntegerText.value_unique {d e : IntegerText} (h : d.text = e.text) :
    d.value = e.value := by
  have hd := d.firstByte_ne.1
  have he := e.firstByte_ne.1
  unfold IntegerText.text at h
  unfold IntegerText.value
  cases hdn : d.negative <;> cases hen : e.negative <;>
    simp only [hdn, hen, if_true, if_false, Bool.false_eq_true, List.cons.injEq, true_and] at h ⊢
  · rw [h]
  · exact absurd (congrArg firstByte h) hd
  · exact absurd (congrArg firstByte h).symm he
  · rw [h]

theorem denotes_intText (v : ℤ) : Denotes (intText v) v := by
  refine ⟨⟨decide (v < 0), decimal v.natAbs, decimal_ne_nil _, fun _ => isDigit_of_mem_decimal⟩,
    ?_, ?_⟩
  · simp only [IntegerText.text, intText, decide_eq_true_eq]
  · simp only [IntegerText.value, decimalValue_decimal, decide_eq_true_eq]
    split <;> omega

theorem denotes_intText_iff (v w : ℤ) : Denotes (intText v) w ↔ v = w := by
  constructor
  · rintro ⟨d, htext, rfl⟩
    obtain ⟨e, htext', rfl⟩ := denotes_intText v
    exact IntegerText.value_unique (htext'.trans htext.symm)
  · rintro rfl
    exact denotes_intText v

/-! ## What is read -/

def InInt (v : ℤ) : Prop := -2 ^ 31 ≤ v ∧ v < 2 ^ 31

def InLong (v : ℤ) : Prop := -2 ^ 63 ≤ v ∧ v < 2 ^ 63

def InUnsigned (v : ℤ) : Prop := 0 ≤ v ∧ v < 2 ^ 32

/-- The `int` that is read for a number: the next `long`, and of that the last 32 bits. -/
def asInt (v : ℤ) : ℤ := int32 (max (-2 ^ 63) (min v (2 ^ 63 - 1)))

/-- The `unsigned int` that is read for a number: the last 32 bits of the next `unsigned long`,
which is the largest one for every number that is too long, also for a negative one. -/
def asUnsigned (v : ℤ) : ℕ :=
  (if 2 ^ 64 ≤ v.natAbs then 2 ^ 64 - 1 else if v < 0 then 2 ^ 64 - v.natAbs else v.natAbs) %
    2 ^ 32

section

variable (d : IntegerText)

theorem IntegerText.mem_text {c : UInt8} (h : c ∈ d.text) : c = chr '-' ∨ IsDigit c := by
  unfold IntegerText.text at h
  split at h
  · exact (List.mem_cons.1 h).imp_right (d.all_digits c)
  · exact .inr (d.all_digits c h)

theorem IntegerText.zero_notMem : 0 ∉ d.text := by
  intro h
  rcases d.mem_text h with hsign | hdigit
  · exact absurd hsign (by decide)
  · exact absurd hdigit (by decide)

theorem IntegerText.dropWhile_isSpace : d.text.dropWhile isSpace = d.text := by
  unfold IntegerText.text
  split
  · exact List.dropWhile_cons_of_neg (by decide)
  · obtain ⟨c, ds, hds⟩ := List.exists_cons_of_ne_nil d.digits_ne
    have hc := isSpace_of_isDigit (d.all_digits c (hds ▸ List.mem_cons_self))
    rw [hds, List.dropWhile_cons_of_neg (by simp [hc])]

theorem IntegerText.takeWhile_isDigit :
    d.digits.takeWhile (fun c => decide (IsDigit c)) = d.digits :=
  List.takeWhile_eq_self_iff.2 fun c hc => decide_eq_true (d.all_digits c hc)

theorem IntegerText.dropWhile_isDigit :
    d.digits.dropWhile (fun c => decide (IsDigit c)) = [] :=
  List.dropWhile_eq_nil_iff.2 fun c hc => decide_eq_true (d.all_digits c hc)

/-- Behind the sign are the digits. -/
theorem IntegerText.behind_sign :
    (if firstByte d.text = chr '-' ∨ firstByte d.text = chr '+' then d.text.tail else d.text) =
      d.digits := by
  unfold IntegerText.text
  cases d.negative with
  | false => exact if_neg (not_or.2 d.firstByte_ne)
  | true => exact if_pos (Or.inl rfl)

theorem IntegerText.firstByte_eq_iff : firstByte d.text = chr '-' ↔ d.negative := by
  unfold IntegerText.text
  cases d.negative with
  | false => exact ⟨fun h => absurd h d.firstByte_ne.1, fun h => absurd h Bool.false_ne_true⟩
  | true => exact ⟨fun _ => rfl, fun _ => rfl⟩

theorem IntegerText.isint_text : isint d.text := by
  simp only [isint, cString_eq_self d.zero_notMem, d.dropWhile_isSpace, d.behind_sign,
    d.dropWhile_isDigit, d.firstByte_digits, List.dropWhile_nil, and_self, decide_true]

theorem IntegerText.scanInt_text : scanInt d.text = asInt d.value := by
  simp only [scanInt, cString_eq_self d.zero_notMem, d.dropWhile_isSpace, d.behind_sign,
    d.takeWhile_isDigit]
  simp only [d.firstByte_eq_iff]
  rfl

theorem IntegerText.scanUnsigned_text : scanUnsignedOrZero d.text = asUnsigned d.value := by
  have habs : d.value.natAbs = decimalValue d.digits := by
    unfold IntegerText.value
    split <;> omega
  simp only [scanUnsignedOrZero, scanUnsigned, cString_eq_self d.zero_notMem, d.dropWhile_isSpace,
    d.behind_sign, d.takeWhile_isDigit, d.digits_ne, if_false, Option.map_some, Option.getD_some]
  simp only [d.firstByte_eq_iff, asUnsigned, habs]
  cases hneg : d.negative with
  | false =>
      have hvalue : d.value = decimalValue d.digits := by simp [IntegerText.value, hneg]
      have hpos : ¬d.value < 0 := by omega
      simp only [hpos, Bool.false_eq_true, if_false]
  | true =>
      have hvalue : d.value = -(decimalValue d.digits : ℤ) := by simp [IntegerText.value, hneg]
      rcases Nat.eq_zero_or_pos (decimalValue d.digits) with hzero | hpos
      · simp [hvalue, hzero]
      · have hlt : d.value < 0 := by omega
        simp only [hlt, if_true]

end

theorem int32_inInt (v : ℤ) : InInt (int32 v) := by
  have hle := Int.le_bmod (x := v) (m := 2 ^ 32) (by decide)
  have hlt := Int.bmod_lt (x := v) (m := 2 ^ 32) (by decide)
  unfold InInt int32
  omega

theorem int32_emod (v : ℤ) : int32 v % 2 ^ 32 = v % 2 ^ 32 := Int.bmod_emod

/-- What is in the range of `int` is left as it is. -/
theorem int32_eq_iff (v w : ℤ) : int32 v = w ↔ InInt w ∧ v % 2 ^ 32 = w % 2 ^ 32 := by
  have hv := int32_inInt v
  have hmod := int32_emod v
  constructor
  · rintro rfl
    exact ⟨hv, hmod.symm⟩
  · rintro ⟨hw, hmod'⟩
    unfold InInt at hv hw
    omega

theorem asInt_inInt (v : ℤ) : InInt (asInt v) := int32_inInt _

/-- A number in the range of `long` keeps its last 32 bits, other numbers are the largest and the
smallest `long` before. -/
theorem asInt_cases (v : ℤ) :
    InLong v ∧ asInt v % 2 ^ 32 = v % 2 ^ 32 ∨ 2 ^ 63 ≤ v ∧ asInt v = -1 ∨
      v < -2 ^ 63 ∧ asInt v = 0 := by
  rcases lt_or_ge v (-2 ^ 63) with hlow | hlow
  · have hclamp : max (-2 ^ 63) (min v (2 ^ 63 - 1)) = -2 ^ 63 := by omega
    refine Or.inr (Or.inr ⟨hlow, ?_⟩)
    rw [asInt, hclamp]
    decide
  · rcases lt_or_ge v (2 ^ 63) with hhigh | hhigh
    · have hclamp : max (-2 ^ 63) (min v (2 ^ 63 - 1)) = v := by omega
      refine Or.inl ⟨⟨hlow, hhigh⟩, ?_⟩
      rw [asInt, hclamp]
      exact int32_emod v
    · have hclamp : max (-2 ^ 63) (min v (2 ^ 63 - 1)) = 2 ^ 63 - 1 := by omega
      refine Or.inr (Or.inl ⟨hhigh, ?_⟩)
      rw [asInt, hclamp]
      decide

theorem asInt_of_inInt {v : ℤ} (h : InInt v) : asInt v = v := by
  have hread := asInt_inInt v
  have hcases := asInt_cases v
  unfold InInt InLong at *
  omega

/-- A number that is not kept is far from what is read for it. -/
theorem asInt_far {v : ℤ} (h : ¬InInt v) : 2 ^ 32 ≤ |v - asInt v| := by
  have hread := asInt_inInt v
  have hcases := asInt_cases v
  rw [abs_eq_max_neg]
  unfold InInt InLong at *
  omega

theorem int32_plus_iff (x y : ℤ) :
    int32 (asInt y + asInt x) = x + y ↔
      InInt (x + y) ∧ (InLong x ∧ InLong y ∨ ¬InLong x ∧ ¬InLong y ∧ x + y = -1) := by
  rw [int32_eq_iff]
  refine and_congr_right fun hfits => ?_
  have hx := asInt_cases x
  have hy := asInt_cases y
  unfold InInt InLong at *
  omega

theorem int32_minus_iff (x y : ℤ) :
    int32 (asInt x - asInt y) = x - y ↔
      InInt (x - y) ∧ (InLong x ∧ InLong y ∨ x = y) := by
  rw [int32_eq_iff]
  refine and_congr_right fun hfits => ?_
  rcases eq_or_ne x y with rfl | hne
  · simp
  · have hx := asInt_cases x
    have hy := asInt_cases y
    unfold InInt InLong at *
    omega

theorem int32_mult_iff (x y : ℤ) : int32 (asInt y * asInt x) = x * y ↔ InInt (x * y) := by
  rw [int32_eq_iff]
  refine and_iff_left_of_imp fun hfits => ?_
  have hzero : asInt 0 = 0 := by decide
  rcases eq_or_ne x 0 with rfl | hx
  · rw [hzero, mul_zero, zero_mul]
  · rcases eq_or_ne y 0 with rfl | hy
    · rw [hzero, mul_zero, zero_mul]
    · have hprod : |x * y| ≤ 2 ^ 31 := abs_le.2 ⟨hfits.1, hfits.2.le⟩
      have hxle : |x| ≤ |x * y| := by
        rw [abs_mul]
        exact le_mul_of_one_le_right (abs_nonneg x) (Int.one_le_abs hy)
      have hyle : |y| ≤ |x * y| := by
        rw [abs_mul]
        exact le_mul_of_one_le_left (abs_nonneg y) (Int.one_le_abs hx)
      have hkeep : ∀ v : ℤ, |v| ≤ 2 ^ 31 → asInt v % 2 ^ 32 = v % 2 ^ 32 := by
        intro v hv
        have hcases := asInt_cases v
        rw [abs_le] at hv
        unfold InLong at hcases
        omega
      rw [Int.mul_emod, hkeep y (hyle.trans hprod), hkeep x (hxle.trans hprod), ← Int.mul_emod,
        mul_comm]

/-- Two numbers with one quotient are less than twice the divisor apart. -/
theorem abs_sub_lt_of_tdiv_eq {v w y : ℤ} (hy : y ≠ 0) (h : v.tdiv y = w.tdiv y) :
    |v - w| < 2 * |y| := by
  have hv := Int.tmod_def v y
  have hw := Int.tmod_def w y
  have hvlt : |v.tmod y| < |y| := by
    rw [Int.abs_eq_natAbs, Int.abs_eq_natAbs, Int.natAbs_tmod]
    exact_mod_cast Nat.mod_lt _ (Int.natAbs_pos.2 hy)
  have hwlt : |w.tmod y| < |y| := by
    rw [Int.abs_eq_natAbs, Int.abs_eq_natAbs, Int.natAbs_tmod]
    exact_mod_cast Nat.mod_lt _ (Int.natAbs_pos.2 hy)
  have hsub : v - w = v.tmod y - w.tmod y := by
    rw [hv, hw, h]
    ring
  rw [hsub]
  linarith [abs_sub (v.tmod y) (w.tmod y)]

theorem tdiv_eq_zero_iff {x y : ℤ} (hy : y ≠ 0) : x.tdiv y = 0 ↔ |x| < |y| := by
  rw [← Int.natAbs_eq_zero, Int.natAbs_tdiv, Int.abs_eq_natAbs, Int.abs_eq_natAbs, Int.ofNat_lt]
  exact Nat.div_eq_zero_iff_lt (Int.natAbs_pos.2 hy)

/-! ## Quotients and remainders -/

/-- When the quotient of two numbers is right. A divisor that is read as 0 is an error. Where both
numbers are out of range, the quotient is that of two other numbers. -/
def QuotientFits (x y : ℤ) : Prop :=
  asInt y = 0 ∨ InInt x ∧ InInt y ∧ ¬(x = -2 ^ 31 ∧ y = -1) ∨
    InInt x ∧ ¬InInt y ∧ |x| < |asInt y| ∨
    ¬InInt x ∧ ¬InInt y ∧ ¬(asInt x = -2 ^ 31 ∧ asInt y = -1) ∧
      (asInt x).tdiv (asInt y) = x.tdiv y

/-- When the remainder of two numbers is right. Where the dividend is out of range or the divisor
is negative and has at most 32 bits, the remainder is that of two other numbers. -/
def RemainderFits (x y : ℤ) : Prop :=
  asUnsigned y = 0 ∨ InUnsigned x ∧ InUnsigned y ∧ x % y < 2 ^ 31 ∨
    InUnsigned x ∧ 2 ^ 32 ≤ |y| ∧ x < 2 ^ 31 ∧ x < asUnsigned y ∨
    ¬(InUnsigned x ∧ (0 ≤ y ∨ 2 ^ 32 ≤ |y|)) ∧
      int32 ((asUnsigned x % asUnsigned y : ℕ) : ℤ) = x.tmod y

/-- A dividend in range and a divisor that is not have the quotient 0, or -1. -/
theorem tdiv_inInt_iff {x y : ℤ} (hx : InInt x) (hy : ¬InInt y) (hread : asInt y ≠ 0) :
    x.tdiv (asInt y) = x.tdiv y ↔ |x| < |asInt y| := by
  have hy0 : y ≠ 0 := by
    rintro rfl
    exact hy (by unfold InInt; omega)
  by_cases hcorner : x = -2 ^ 31 ∧ y = 2 ^ 31
  · obtain ⟨rfl, rfl⟩ := hcorner
    decide
  · have hlt : |x| < |y| := by
      rw [abs_eq_max_neg, abs_eq_max_neg]
      unfold InInt at hx hy
      omega
    rw [(tdiv_eq_zero_iff hy0).2 hlt, tdiv_eq_zero_iff hread]

theorem quotientFits_iff (x y : ℤ) :
    QuotientFits x y ↔ asInt y = 0 ∨ ¬(asInt x = -2 ^ 31 ∧ asInt y = -1) ∧
      (asInt x).tdiv (asInt y) = x.tdiv y := by
  unfold QuotientFits
  refine or_congr_right' fun hread => ?_
  by_cases hy : InInt y
  · rw [asInt_of_inInt hy] at hread ⊢
    by_cases hx : InInt x
    · simp only [asInt_of_inInt hx, hx, hy, true_and, not_true, false_and, or_false, and_true]
    · simp only [hx, hy, not_true, false_and, false_or, and_false, false_iff, not_and]
      intro _ hquot
      have hnear := abs_sub_lt_of_tdiv_eq hread hquot.symm
      have hfar := asInt_far hx
      have hyle : |y| ≤ 2 ^ 31 := abs_le.2 ⟨hy.1, hy.2.le⟩
      linarith
  · by_cases hx : InInt x
    · simp only [asInt_of_inInt hx, hx, hy, true_and, not_true, false_and, or_false, false_or,
        and_false, not_false_iff, tdiv_inInt_iff hx hy hread]
      refine (and_iff_right_of_imp ?_).symm
      rintro hlt ⟨rfl, hone⟩
      rw [hone] at hlt
      exact absurd hlt (by decide)
    · simp only [hx, hy, false_and, and_false, not_false_iff, true_and, false_or]

/-- A number of at most 64 bits keeps its last 32 bits, every other number is all ones before. -/
theorem asUnsigned_cases (v : ℤ) :
    |v| < 2 ^ 64 ∧ (asUnsigned v : ℤ) = v % 2 ^ 32 ∨ 2 ^ 64 ≤ |v| ∧ asUnsigned v = 2 ^ 32 - 1 := by
  have habs : |v| = v.natAbs := Int.abs_eq_natAbs v
  rw [asUnsigned]
  by_cases hlong : 2 ^ 64 ≤ v.natAbs
  · rw [if_pos hlong]
    exact Or.inr ⟨by omega, by decide⟩
  · rw [if_neg hlong]
    refine Or.inl ⟨by omega, ?_⟩
    split <;> omega

theorem asUnsigned_of_inUnsigned {v : ℤ} (h : InUnsigned v) : (asUnsigned v : ℤ) = v := by
  have hcases := asUnsigned_cases v
  rw [abs_eq_max_neg] at hcases
  unfold InUnsigned at h
  omega

theorem asUnsigned_lt (v : ℤ) : asUnsigned v < 2 ^ 32 := Nat.mod_lt _ (by decide)

/-- What is left of a dividend in range by what is read for a divisor. -/
theorem int32_asUnsigned_mod {x y : ℤ} (hx : InUnsigned x) (hread : asUnsigned y ≠ 0) (w : ℤ) :
    int32 ((asUnsigned x % asUnsigned y : ℕ) : ℤ) = w ↔
      x % asUnsigned y = w ∧ w < 2 ^ 31 ∨
        x % asUnsigned y = w + 2 ^ 32 ∧ InInt w := by
  have hrange := asUnsigned_lt y
  have hlo : 0 ≤ x % (asUnsigned y : ℤ) := Int.emod_nonneg _ (by omega)
  have hhi : x % (asUnsigned y : ℤ) < asUnsigned y := Int.emod_lt_of_pos _ (by omega)
  rw [int32_eq_iff, Int.natCast_mod, asUnsigned_of_inUnsigned hx]
  generalize x % (asUnsigned y : ℤ) = r at hlo hhi
  unfold InInt
  omega

/-- A divisor of more than 32 bits leaves a dividend in range as it is. -/
theorem remainder_of_far {x y : ℤ} (hx : InUnsigned x) (hy : 2 ^ 32 ≤ |y|)
    (hread : asUnsigned y ≠ 0) :
    int32 ((asUnsigned x % asUnsigned y : ℕ) : ℤ) = x.tmod y ↔ x < 2 ^ 31 ∧ x < asUnsigned y := by
  have hx0 := hx.1
  have hself : x.tmod y = x := by
    rcases abs_choice y with habs | habs
    · exact Int.tmod_eq_of_lt hx0 (by rw [← habs]; exact lt_of_lt_of_le hx.2 hy)
    · rw [← Int.tmod_neg, ← habs]
      exact Int.tmod_eq_of_lt hx0 (lt_of_lt_of_le hx.2 hy)
  have hhi : x % (asUnsigned y : ℤ) < asUnsigned y := Int.emod_lt_of_pos _ (by omega)
  have hrange := asUnsigned_lt y
  rw [hself, int32_asUnsigned_mod hx hread]
  constructor
  · rintro (⟨hmod, hsmall⟩ | ⟨hmod, -⟩)
    · exact ⟨hsmall, hmod ▸ hhi⟩
    · omega
  · rintro ⟨hsmall, hlt⟩
    exact Or.inl ⟨Int.emod_eq_of_lt hx0 hlt, hsmall⟩

theorem remainder_of_inUnsigned {x y : ℤ} (hx : InUnsigned x) (hy : InUnsigned y)
    (hread : asUnsigned y ≠ 0) :
    int32 ((asUnsigned x % asUnsigned y : ℕ) : ℤ) = x.tmod y ↔ x % y < 2 ^ 31 := by
  have hyv := asUnsigned_of_inUnsigned hy
  have hlo : 0 ≤ x % y := Int.emod_nonneg _ (by omega)
  rw [int32_asUnsigned_mod hx hread, hyv, Int.tmod_eq_emod_of_nonneg hx.1]
  omega

theorem remainderFits_iff (x y : ℤ) :
    RemainderFits x y ↔
      asUnsigned y = 0 ∨ int32 ((asUnsigned x % asUnsigned y : ℕ) : ℤ) = x.tmod y := by
  unfold RemainderFits
  refine or_congr_right' fun hread => ?_
  by_cases hx : InUnsigned x
  · by_cases hfar : 2 ^ 32 ≤ |y|
    · have hnot : ¬InUnsigned y := by
        rw [abs_eq_max_neg] at hfar
        unfold InUnsigned
        omega
      simp only [hx, hnot, hfar, remainder_of_far hx hfar hread, true_and, false_and, false_or,
        or_true, not_true, or_false]
    · by_cases hy : 0 ≤ y
      · have hyu : InUnsigned y := ⟨hy, by rw [abs_of_nonneg hy] at hfar; omega⟩
        simp only [hx, hyu, hy, hfar, remainder_of_inUnsigned hx hyu hread, true_and, false_and,
          not_true, or_false]
      · have hyu : ¬InUnsigned y := fun h => hy h.1
        simp only [hyu, hy, hfar, false_and, and_false, false_or, or_self, not_false_iff, true_and]
  · simp only [hx, false_and, false_or, not_false_iff, true_and]

theorem asUnsigned_eq_abs_iff (x : ℤ) :
    (asUnsigned x : ℤ) = |x| ↔ InUnsigned x ∨ x = -2 ^ 31 := by
  have hcases := asUnsigned_cases x
  rw [abs_eq_max_neg] at hcases ⊢
  unfold InUnsigned
  omega

/-! ## The exact results -/

inductive Calculation where
  | plus (x y : IntegerText)
  | minus (x y : IntegerText)
  | mult (x y : IntegerText)
  | divide (x y : IntegerText)
  | abs (x : IntegerText)
  | mod (x y : IntegerText)

def Calculation.outcome (floats : TokenType → Bytes → Bytes → Outcome) : Calculation → Outcome
  | .plus x y => addSubMultDiv floats false .plus y.text x.text
  | .minus x y => addSubMultDiv floats false .minus y.text x.text
  | .mult x y => addSubMultDiv floats false .mult y.text x.text
  | .divide x y => addSubMultDiv floats false .divide y.text x.text
  | .abs x => solveAbs x.text
  | .mod x y => solveMod y.text x.text

def Calculation.exact : Calculation → ℤ
  | .plus x y => x.value + y.value
  | .minus x y => x.value - y.value
  | .mult x y => x.value * y.value
  | .divide x y => x.value.tdiv y.value
  | .abs x => |x.value|
  | .mod x y => x.value.tmod y.value

def Outcome.Exact (v : ℤ) : Outcome → Prop
  | .value text => Denotes text v
  | .error => True
  | .trap => False

/-- When the result is exact, or there is none. Sums of two numbers that are no `long`s are -1. -/
def Calculation.Fits : Calculation → Prop
  | .plus x y =>
      InInt (x.value + y.value) ∧ (InLong x.value ∧ InLong y.value ∨
        ¬InLong x.value ∧ ¬InLong y.value ∧ x.value + y.value = -1)
  | .minus x y =>
      InInt (x.value - y.value) ∧ (InLong x.value ∧ InLong y.value ∨ x.value = y.value)
  | .mult x y => InInt (x.value * y.value)
  | .divide x y => QuotientFits x.value y.value
  | .abs x => InUnsigned x.value ∨ x.value = -2 ^ 31
  | .mod x y => RemainderFits x.value y.value

section

variable (floats : TokenType → Bytes → Bytes → Outcome)

/-- Two whole numbers are calculated with as `int`s. -/
theorem addSubMultDiv_text (type : TokenType) (x y : IntegerText) :
    addSubMultDiv floats false type y.text x.text =
      intArithmetic type (asInt y.value) (asInt x.value) := by
  rw [addSubMultDiv, if_neg Bool.false_ne_true, if_pos ⟨y.isint_text, x.isint_text⟩,
    x.scanInt_text, y.scanInt_text]

theorem exact_plus_iff (x y : IntegerText) :
    ((Calculation.plus x y).outcome floats).Exact (Calculation.plus x y).exact ↔
      (Calculation.plus x y).Fits := by
  rw [Calculation.outcome, addSubMultDiv_text]
  exact (denotes_intText_iff _ _).trans (int32_plus_iff x.value y.value)

theorem exact_divide_iff (x y : IntegerText) :
    ((Calculation.divide x y).outcome floats).Exact (Calculation.divide x y).exact ↔
      (Calculation.divide x y).Fits := by
  refine Iff.trans ?_ (quotientFits_iff x.value y.value).symm
  rw [Calculation.outcome, addSubMultDiv_text, intArithmetic]
  by_cases hzero : asInt y.value = 0
  · simp only [hzero, if_true]
    exact iff_of_true trivial (Or.inl trivial)
  · rw [or_iff_right hzero]
    simp only [if_neg hzero]
    by_cases htrap : asInt x.value = -2 ^ 31 ∧ asInt y.value = -1
    · rw [if_pos htrap]
      exact iff_of_false id fun h => h.1 htrap
    · rw [if_neg htrap, and_iff_right htrap]
      exact denotes_intText_iff _ _

theorem exact_abs_iff (x : IntegerText) :
    ((Calculation.abs x).outcome floats).Exact (Calculation.abs x).exact ↔
      (Calculation.abs x).Fits := by
  refine Iff.trans ?_ (asUnsigned_eq_abs_iff x.value)
  have htext : decimal (asUnsigned x.value) = intText (asUnsigned x.value) := by
    rw [intText, if_neg (by omega), Int.natAbs_natCast]
  rw [Calculation.outcome, solveAbs, x.scanUnsigned_text, htext]
  exact denotes_intText_iff _ _

theorem exact_mod_iff (x y : IntegerText) :
    ((Calculation.mod x y).outcome floats).Exact (Calculation.mod x y).exact ↔
      (Calculation.mod x y).Fits := by
  refine Iff.trans ?_ (remainderFits_iff x.value y.value).symm
  rw [Calculation.outcome, solveMod, x.scanUnsigned_text, y.scanUnsigned_text]
  by_cases hzero : asUnsigned y.value = 0
  · simp only [hzero, if_true]
    exact iff_of_true trivial (Or.inl trivial)
  · rw [or_iff_right hzero]
    simp only [if_neg hzero]
    exact denotes_intText_iff _ _

/-- A calculation with whole numbers of any length gives the exact number or an error exactly when
its numbers fit. -/
theorem integer_calculation_exact_iff (c : Calculation) :
    (c.outcome floats).Exact c.exact ↔ c.Fits := by
  cases c with
  | plus x y => exact exact_plus_iff floats x y
  | minus x y =>
      rw [Calculation.outcome, addSubMultDiv_text]
      exact (denotes_intText_iff _ _).trans (int32_minus_iff x.value y.value)
  | mult x y =>
      rw [Calculation.outcome, addSubMultDiv_text]
      exact (denotes_intText_iff _ _).trans (int32_mult_iff x.value y.value)
  | divide x y => exact exact_divide_iff floats x y
  | abs x => exact exact_abs_iff floats x
  | mod x y => exact exact_mod_iff floats x y

end

/-- The largest `int` and 1 have a negative sum. -/
theorem integer_calculation_not_always_exact :
    ¬∀ (floats : TokenType → Bytes → Bytes → Outcome) (c : Calculation),
      (c.outcome floats).Exact c.exact := by
  intro h
  have hfits := (exact_plus_iff _ _ _).1
    (h (fun _ _ _ => .error) (.plus (.ofNat 2147483647) (.ofNat 1)))
  have hsum : (IntegerText.ofNat 2147483647).value + (IntegerText.ofNat 1).value = 2 ^ 31 := by
    simp [IntegerText.ofNat, IntegerText.value, decimalValue_decimal]
  have hlt := hfits.1.2
  rw [hsum] at hlt
  exact absurd hlt (lt_irrefl _)

end ScOpen.Expression
