import ScOpen.SmlHeaders
import ScOpen.SecsDecode

/-!
# Integers written and read back

The decoder stores a number as its decimal text, and it stores the number that is left when the
bytes of a type are read back (`IntegerType.wrap`). So a written number is kept exactly when what
is left of it after the encoder's accumulator and the type's bytes is the number itself.
-/

namespace ScOpen

/-! ## Numbers as texts -/

def intText (v : ℤ) : Bytes :=
  if v < 0 then chr '-' :: decimal v.natAbs else decimal v.natAbs

theorem decimal_injective {m n : ℕ} (h : decimal m = decimal n) : m = n := by
  rw [← decimalValue_decimal m, h, decimalValue_decimal]

theorem minus_notMem_decimal (n : ℕ) : chr '-' ∉ decimal n := by
  intro h
  exact ne_minus_of_isDigit (isDigit_of_mem_decimal h) rfl

theorem intText_ne_nil (v : ℤ) : intText v ≠ [] := by
  unfold intText
  split
  · simp
  · exact decimal_ne_nil _

theorem intText_injective {v w : ℤ} (h : intText v = intText w) : v = w := by
  unfold intText at h
  split at h <;> split at h
  · rw [List.cons.injEq] at h
    have := decimal_injective h.2
    omega
  · exact (minus_notMem_decimal w.natAbs (h ▸ List.mem_cons_self)).elim
  · exact (minus_notMem_decimal v.natAbs (h ▸ List.mem_cons_self)).elim
  · have := decimal_injective h
    omega

theorem myUtoa_eq_intText (n : ℕ) : myUtoa n = intText n := by
  rw [myUtoa_eq, intText, if_neg (by omega), Int.natAbs_natCast]

theorem myItoa_eq_intText {v : ℤ} (h : -(2 ^ 63) < v) : myItoa v = intText v := by
  rw [intText]
  split
  · rename_i hneg
    have hv : v = -(v.natAbs : ℤ) := by omega
    have hpos : 0 < v.natAbs := by omega
    have hitoa := myItoa_neg hpos (by omega)
    rwa [← hv] at hitoa
  · rename_i hpos
    have hv : v = (v.natAbs : ℤ) := by omega
    have hitoa := myItoa_natCast v.natAbs
    rwa [← hv] at hitoa

/-! ## Numbers as bytes -/

/-- The number that the bytes of a type stand for. -/
def IntegerType.wrap (t : IntegerType) (v : ℤ) : ℤ :=
  if t.signed then Int.bmod v (256 ^ t.width) else v % 256 ^ t.width

theorem natCast_room (width : ℕ) : ((256 ^ width : ℕ) : ℤ) = 256 ^ width := by
  push_cast
  rfl

theorem beValue_integerBytes (width : ℕ) (v : ℤ) :
    (beValue (integerBytes width v) : ℤ) = v % 256 ^ width := by
  have hpos : (0 : ℤ) < 256 ^ width := Int.pow_pos (by decide)
  have hlt : (v % 256 ^ width).toNat < 256 ^ width := by
    apply Int.ofNat_lt.1
    rw [Int.toNat_of_nonneg (Int.emod_nonneg v hpos.ne'), natCast_room]
    exact Int.emod_lt_of_pos v hpos
  rw [integerBytes, beValue_beBytes_of_lt hlt, Int.toNat_of_nonneg (Int.emod_nonneg v hpos.ne')]

theorem signedValue_swap (width : ℕ) (v : ℤ) :
    signedValue width (swap (integerBytes width v)) = Int.bmod v (256 ^ width) := by
  rw [signedValue, leValue_swap, beValue_integerBytes, ← natCast_room, Int.emod_bmod]

/-- What the decoder stores for the bytes of a number. -/
theorem IntegerType.kind_value (fl : FloatText) (t : IntegerType) {v : ℤ}
    (h : -(2 ^ 63) < t.wrap v) :
    (t.elementType.kind fl).value (integerBytes t.width v) = intText (t.wrap v) := by
  cases ht : t.signed with
  | false =>
      have hwrap : t.wrap v = v % 256 ^ t.width := by simp [IntegerType.wrap, ht]
      have hvalue : (t.elementType.kind fl).value (integerBytes t.width v) =
          myUtoa (beValue (integerBytes t.width v)) := by
        cases t <;> first | exact (Bool.noConfusion ht) | rfl
      rw [hvalue, hwrap, myUtoa_eq_intText, beValue_integerBytes]
  | true =>
      have hwrap : t.wrap v = Int.bmod v (256 ^ t.width) := by simp [IntegerType.wrap, ht]
      have hone : swap (integerBytes 1 v) = integerBytes 1 v := by
        obtain ⟨b, hb⟩ := List.length_eq_one_iff.1 (length_integerBytes 1 v)
        rw [hb]
        rfl
      have hvalue : (t.elementType.kind fl).value (integerBytes t.width v) =
          myItoa (signedValue t.width (swap (integerBytes t.width v))) := by
        cases t <;> simp only [IntegerType.signed, Bool.false_eq_true] at ht <;>
          simp only [IntegerType.elementType, ElementType.kind, signed1Kind, signed2Kind,
            signed4Kind, signed8Kind, numberKind, IntegerType.width, ElementType.width, hone]
      rw [hvalue, signedValue_swap, ← hwrap, myItoa_eq_intText h]

theorem bmod_eq_self_iff {m : ℕ} (hpos : 0 < m) (heven : m % 2 = 0) (v : ℤ) :
    Int.bmod v m = v ↔ -(m : ℤ) ≤ 2 * v ∧ 2 * v < m := by
  constructor
  · intro h
    have hle := Int.le_bmod (x := v) hpos
    have hlt := Int.bmod_lt (x := v) hpos
    rw [h] at hle hlt
    omega
  · rintro ⟨hle, hlt⟩
    apply Int.bmod_eq_of_le <;> omega

theorem IntegerType.room (t : IntegerType) : 0 < 256 ^ t.width ∧ 256 ^ t.width % 2 = 0 := by
  cases t <;> decide

theorem IntegerType.inRange_iff (t : IntegerType) (v : ℤ) : t.InRange v ↔ t.wrap v = v := by
  obtain ⟨hpos, heven⟩ := t.room
  cases ht : t.signed with
  | false =>
      simp only [IntegerType.InRange, IntegerType.wrap, ht, Bool.false_eq_true, if_false,
        ← natCast_room t.width]
      constructor
      · rintro ⟨hle, hlt⟩
        exact Int.emod_eq_of_lt hle hlt
      · intro h
        rw [← h]
        exact ⟨Int.emod_nonneg _ (by omega), Int.emod_lt_of_pos _ (by omega)⟩
  | true =>
      simp only [IntegerType.InRange, IntegerType.wrap, ht, if_true]
      rw [bmod_eq_self_iff hpos heven, natCast_room t.width]

theorem integerBytes_wrap (t : IntegerType) (v : ℤ) :
    integerBytes t.width (t.wrap v) = integerBytes t.width v := by
  have hemod : t.wrap v % 256 ^ t.width = v % 256 ^ t.width := by
    unfold IntegerType.wrap
    split
    · rw [← natCast_room t.width, Int.bmod_emod]
    · rw [Int.emod_emod_of_dvd _ dvd_rfl]
  rw [integerBytes, hemod, ← integerBytes]

/-- A stored number is above the smallest of 64 bits. -/
theorem Decimal.wrap_stored (t : IntegerType) (d : Decimal) : -(2 ^ 63) < t.wrap (d.stored t) := by
  obtain ⟨hpos, heven⟩ := t.room
  cases ht : t.signed with
  | false =>
      simp only [IntegerType.wrap, ht, Bool.false_eq_true, if_false,
        ← natCast_room t.width]
      have hnonneg := Int.emod_nonneg (d.stored t) (b := (256 ^ t.width : ℕ)) (by omega)
      omega
  | true =>
      have hint := Int.le_bmod (x := d.value) (m := 2 ^ 32) (by decide)
      have hint' := Int.bmod_lt (x := d.value) (m := 2 ^ 32) (by decide)
      simp only [IntegerType.wrap, Decimal.stored, ht, if_true]
      generalize Int.bmod d.value (2 ^ 32) = v at hint hint'
      by_cases hwide : t.width = 8
      · have hself : Int.bmod v (256 ^ t.width) = v := by
          rw [bmod_eq_self_iff hpos heven, hwide]
          omega
        rw [hself]
        omega
      · have hle := Int.le_bmod (x := v) hpos
        have hnarrow : 256 ^ t.width ≤ 2 ^ 32 := by
          cases t <;> first | exact absurd rfl hwide | decide
        omega

/-- The number that is read back is the one that was written. -/
theorem Decimal.kept_iff (t : IntegerType) (d : Decimal) (hrej : d.rejected t = false) :
    d.Kept t ↔ t.wrap (d.stored t) = d.value := by
  have hbytes : d.storedBytes t = integerBytes t.width (d.stored t) := by
    simp [Decimal.storedBytes, hrej]
  constructor
  · rintro ⟨hrange, -, hstored⟩
    rw [hbytes] at hstored
    have hvalue := congrArg (fun p => (beValue p : ℤ)) hstored
    simp only [beValue_integerBytes] at hvalue
    have hwrap : t.wrap (d.stored t) = t.wrap d.value := by
      unfold IntegerType.wrap
      rw [hvalue, ← Int.emod_bmod, ← Int.emod_bmod d.value, natCast_room t.width, hvalue]
    rw [hwrap, (t.inRange_iff _).1 hrange]
  · intro hwrap
    have hrange : t.InRange d.value := by
      rw [t.inRange_iff, ← hwrap]
      unfold IntegerType.wrap
      split
      · rw [Int.bmod_bmod]
      · rw [Int.emod_emod_of_dvd _ dvd_rfl]
    refine ⟨hrange, hrej, ?_⟩
    rw [hbytes, ← hwrap, integerBytes_wrap]

end ScOpen
