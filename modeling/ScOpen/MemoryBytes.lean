import ScOpen.CTypes

/-!
# Bytes in memory

What is read from where some bytes stand, when more are read than there are. What lies behind them
is a parameter.
-/

namespace ScOpen

/-- The `length` bytes from where `text` stands; what is behind it was never written. -/
def bytesAt (behind : ℕ → UInt8) (text : Bytes) (length : ℕ) : Bytes :=
  (List.range length).map fun i => text[i]?.getD (behind i)

theorem bytesAt_length (behind : ℕ → UInt8) (text : Bytes) (n : ℕ) :
    (bytesAt behind text n).length = n := by
  rw [bytesAt, List.length_map, List.length_range]

theorem bytesAt_getElem? (behind : ℕ → UInt8) (text : Bytes) {n i : ℕ} (hi : i < n) :
    (bytesAt behind text n)[i]? = some (text[i]?.getD (behind i)) := by
  rw [bytesAt, List.getElem?_map, List.getElem?_range hi]
  rfl

/-- Within the text nothing of what lies behind it is read. -/
theorem bytesAt_of_le {behind : ℕ → UInt8} {text : Bytes} {n : ℕ} (h : n ≤ text.length) :
    bytesAt behind text n = text.take n := by
  apply List.ext_getElem?
  intro i
  by_cases hi : i < n
  · have htext : i < text.length := by omega
    rw [bytesAt_getElem? _ _ hi, List.getElem?_take_of_lt hi, List.getElem?_eq_getElem htext]
    rfl
  · rw [List.getElem?_eq_none (by rw [bytesAt_length]; omega),
      List.getElem?_eq_none (by rw [List.length_take]; omega)]

theorem bytesAt_self {behind : ℕ → UInt8} {text : Bytes} :
    bytesAt behind text text.length = text := by
  rw [bytesAt_of_le le_rfl, List.take_length]

theorem bytesAt_left {behind : ℕ → UInt8} {text rest : Bytes} {n : ℕ} (h : text.length = n) :
    bytesAt behind (text ++ rest) n = text := by
  have hle : n ≤ (text ++ rest).length := by
    rw [List.length_append]
    omega
  rw [bytesAt_of_le hle, ← h, List.take_left]

theorem bytesAt_bytesAt (behind behind' : ℕ → UInt8) (text : Bytes) (n : ℕ) :
    bytesAt behind (bytesAt behind' text n) n = bytesAt behind' text n := by
  have hlen := bytesAt_length behind' text n
  rw [bytesAt_of_le hlen.ge, List.take_of_length_le hlen.le]

/-! ## The end of a C string -/

theorem cString_append_zero {v : Bytes} (h : 0 ∈ v) : ∃ r, v = cString v ++ 0 :: r := by
  induction v with
  | nil => exact absurd h List.not_mem_nil
  | cons b v ih =>
      by_cases hb : b = 0
      · subst hb
        exact ⟨v, rfl⟩
      · have hmem : 0 ∈ v := (List.mem_cons.1 h).resolve_left fun heq => hb heq.symm
        obtain ⟨r, hr⟩ := ih hmem
        have hcons : cString (b :: v) = b :: cString v := by
          rw [cString, List.takeWhile_cons, decide_eq_true (show b ≠ 0 from hb)]
          rfl
        exact ⟨r, by rw [hcons, List.cons_append, ← hr]⟩

theorem zero_notMem_cString (v : Bytes) : 0 ∉ cString v := by
  intro h
  have hne := List.mem_takeWhile_imp h
  exact of_decide_eq_true hne rfl

/-- The C string in front of a NUL. -/
theorem cString_zero {text : Bytes} (h : 0 ∉ text) (rest : Bytes) :
    cString (text ++ 0 :: rest) = text := by
  have hne : ∀ b ∈ text, decide (b ≠ 0) = true := by
    intro b hb
    rw [decide_eq_true_eq]
    rintro rfl
    exact h hb
  rw [cString, List.takeWhile_append_of_pos hne, List.takeWhile_cons_of_neg (by decide),
    List.append_nil]

end ScOpen
