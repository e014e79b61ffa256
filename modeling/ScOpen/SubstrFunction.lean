import ScOpen.IntegerArithmetic
import ScOpen.MemoryBytes

/-!
# The `substr` function

The count is cut where the part would go over the end of the string. How much there is behind the
index is a difference of `uint32_t`s, which for an index behind the end is a large number.
-/

namespace ScOpen.Expression

def substrCount (size x y : ℕ) : ℕ :=
  if sub32 size x < y then (sub32 size x + 1) % 2 ^ 32 else y

def substrPart (arg0 arg1 arg2 : Bytes) : Option (ℕ × ℕ) :=
  let y := scanUnsignedOrZero arg0
  let x := scanUnsignedOrZero arg1
  if 1 ≤ x then some (x - 1, substrCount arg2.length x y) else none

/-- `TT_SUBSTR` in `solve_function()`. The token of the function itself has no text. -/
def solveSubstr (behind : ℕ → UInt8) (arg0 arg1 arg2 : Bytes) : Bytes :=
  match substrPart arg0 arg1 arg2 with
  | some (start, length) => bytesAt (fun i => behind (start + i)) (arg2.drop start) length
  | none => []

def positions (s : Bytes) (i m : ℕ) : Bytes := (s.take m).drop (i - 1)

section

variable {arg0 arg1 s : Bytes} {i n x y : ℕ}

theorem substrCount_inside (hx : 1 ≤ x) (hle : x ≤ s.length) (hs : s.length < 2 ^ 32) :
    substrCount s.length x y = min y (s.length - x + 1) := by
  have hsub : sub32 s.length x = s.length - x := sub32_of_le hle hs
  have hmod : (s.length - x + 1) % 2 ^ 32 = s.length - x + 1 := Nat.mod_eq_of_lt (by omega)
  rw [substrCount, hsub, hmod]
  split
  · omega
  · omega

/-- Behind the end the count is cut, but never to 0. -/
theorem substrCount_pos (hlt : s.length < x) (hx : x < 2 ^ 32) (hy : 1 ≤ y) (hy' : y < 2 ^ 32) :
    1 ≤ substrCount s.length x y := by
  have hsub : sub32 s.length x = 2 ^ 32 - (x - s.length) := by
    unfold sub32
    omega
  rw [substrCount, hsub]
  split
  · rw [Nat.mod_eq_of_lt (by omega)]
    omega
  · exact hy

theorem positions_length (s : Bytes) (i m : ℕ) :
    (positions s i m).length = min m s.length - (i - 1) := by
  rw [positions, List.length_drop, List.length_take]

theorem bytesAt_positions (behind : ℕ → UInt8) (hi : 1 ≤ i) (hle : i ≤ s.length) :
    bytesAt behind (s.drop (i - 1)) (min n (s.length - i + 1)) =
      positions s i (min (i + n - 1) s.length) := by
  have hroom : min n (s.length - i + 1) ≤ (s.drop (i - 1)).length := by
    rw [List.length_drop]
    omega
  rw [bytesAt_of_le hroom, positions, List.drop_take]
  congr 1
  omega

theorem scanUnsigned_of_denotes {v : ℤ} {text : Bytes} (h : Denotes text v) :
    scanUnsignedOrZero text = asUnsigned v := by
  obtain ⟨d, rfl, rfl⟩ := h
  exact d.scanUnsigned_text

theorem asUnsigned_of_lt (hn : n < 2 ^ 32) : asUnsigned n = n := by
  have hfits : ¬2 ^ 64 ≤ (n : ℤ).natAbs := by omega
  rw [asUnsigned, if_neg hfits, if_neg (by omega), Int.natAbs_natCast, Nat.mod_eq_of_lt hn]

theorem solveSubstr_of_pos (behind : ℕ → UInt8) (h0 : scanUnsignedOrZero arg0 = y)
    (h1 : scanUnsignedOrZero arg1 = x) (hx : 1 ≤ x) :
    solveSubstr behind arg0 arg1 s =
      bytesAt (fun i => behind (x - 1 + i)) (s.drop (x - 1)) (substrCount s.length x y) := by
  simp only [solveSubstr, substrPart, h0, h1, if_pos hx]

theorem substrPart_of_pos (h0 : scanUnsignedOrZero arg0 = y) (h1 : scanUnsignedOrZero arg1 = x)
    (hx : 1 ≤ x) : substrPart arg0 arg1 s = some (x - 1, substrCount s.length x y) := by
  simp only [substrPart, h0, h1, if_pos hx]

theorem positions_behind (hlt : s.length < i) (m : ℕ) : positions s i m = [] := by
  apply List.eq_nil_of_length_eq_zero
  rw [positions_length]
  omega

/-- The characters from the index on, as many as asked for and no more than there are, and nothing
outside the string, exactly when the index is in the string, or nothing is asked for, or the index
is read as 0. -/
theorem substr_right_iff (hs : s.length < 2 ^ 32) (hi : 1 ≤ i) (hn : n < 2 ^ 32)
    (h0 : Denotes arg0 n) (h1 : Denotes arg1 i) :
    ((∀ behind, solveSubstr behind arg0 arg1 s = positions s i (min (i + n - 1) s.length)) ∧
      ∀ start length, substrPart arg0 arg1 s = some (start, length) →
        ∀ j < length, start + j < s.length) ↔
      i ≤ s.length ∨ n = 0 ∨ asUnsigned i = 0 := by
  have hy : scanUnsignedOrZero arg0 = n := (scanUnsigned_of_denotes h0).trans (asUnsigned_of_lt hn)
  have hx : scanUnsignedOrZero arg1 = asUnsigned i := scanUnsigned_of_denotes h1
  by_cases hle : i ≤ s.length
  · have hx' : scanUnsignedOrZero arg1 = i := hx.trans (asUnsigned_of_lt (by omega))
    refine ⟨fun _ => .inl hle, fun _ => ⟨fun behind => ?_, fun start length hpart j hj => ?_⟩⟩
    · rw [solveSubstr_of_pos behind hy hx' hi, substrCount_inside hi hle hs,
        bytesAt_positions _ hi hle]
    · rw [substrPart_of_pos hy hx' hi, substrCount_inside hi hle hs] at hpart
      cases hpart
      omega
  have hlt : s.length < i := not_le.1 hle
  by_cases hzero : asUnsigned i = 0
  · have hnone : substrPart arg0 arg1 s = none := by
      simp only [substrPart, hx, hzero]
      exact if_neg (Nat.not_succ_le_zero 0)
    refine ⟨fun _ => .inr (.inr hzero), fun _ => ⟨fun behind => ?_, fun start length hpart => ?_⟩⟩
    · rw [solveSubstr, hnone, positions_behind hlt]
    · rw [hnone] at hpart
      cases hpart
  have hpos : 1 ≤ asUnsigned i := Nat.pos_of_ne_zero hzero
  constructor
  · rintro ⟨hvalue, -⟩
    by_contra hnot
    have hn' : 1 ≤ n := Nat.pos_of_ne_zero fun h => hnot (.inr (.inl h))
    have hcount : 1 ≤ substrCount s.length (asUnsigned i) n := by
      by_cases hin : asUnsigned i ≤ s.length
      · rw [substrCount_inside hpos hin hs]
        omega
      · exact substrCount_pos (not_le.1 hin) (asUnsigned_lt _) hn' hn
    have hlength := congrArg List.length (hvalue fun _ => 0)
    rw [solveSubstr_of_pos _ hy hx hpos, bytesAt_length, positions_behind hlt,
      List.length_nil] at hlength
    omega
  · rintro (h | rfl | h)
    · exact absurd h hle
    · have hcount : substrCount s.length (asUnsigned i) 0 = 0 := by
        rw [substrCount, if_neg (Nat.not_lt_zero _)]
      refine ⟨fun behind => ?_, fun start length hpart j hj => ?_⟩
      · rw [solveSubstr_of_pos behind hy hx hpos, hcount, positions_behind hlt]
        rfl
      · rw [substrPart_of_pos hy hx hpos, hcount] at hpart
        cases hpart
        exact absurd hj (Nat.not_lt_zero _)
    · exact absurd h hzero

end

theorem denotes_digit {c : UInt8} (hc : IsDigit c) : Denotes [c] (digitValue c : ℕ) :=
  ⟨⟨false, [c], by simp, List.forall_mem_singleton.2 hc⟩, rfl, by
    simp [IntegerText.value, decimalValue]⟩

theorem substr_right_over_the_end :
    ((∀ behind, solveSubstr behind (cstr "9") (cstr "2") (cstr "abc") =
        positions (cstr "abc") 2 (min (2 + 9 - 1) 3)) ∧
      ∀ start length, substrPart (cstr "9") (cstr "2") (cstr "abc") = some (start, length) →
        ∀ j < length, start + j < 3) ↔ 2 ≤ 3 ∨ 9 = 0 ∨ asUnsigned 2 = 0 :=
  @substr_right_iff (cstr "9") (cstr "2") (cstr "abc") 2 9 (by decide) (by decide) (by decide)
    (denotes_digit (by decide)) (denotes_digit (by decide))

/-- `substr("abc", 5, 2)` -/
theorem substr_not_always_right :
    ¬∀ (s arg0 arg1 : Bytes) (i n : ℕ), s.length < 2 ^ 32 → 1 ≤ i → n < 2 ^ 32 →
      Denotes arg0 n → Denotes arg1 i →
      (∀ behind, solveSubstr behind arg0 arg1 s = positions s i (min (i + n - 1) s.length)) ∧
        ∀ start length, substrPart arg0 arg1 s = some (start, length) →
          ∀ j < length, start + j < s.length := by
  intro h
  obtain ⟨hvalue, -⟩ := h (cstr "abc") (cstr "2") (cstr "5") 5 2 (by decide) (by decide) (by decide)
    (denotes_digit (by decide)) (denotes_digit (by decide))
  exact absurd (hvalue fun _ => 0) (by decide)

end ScOpen.Expression
