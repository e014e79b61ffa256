import ScOpen.SecsDecodeNoArrays
import ScOpen.SecsDecodeTurn
import ScOpen.Sml

/-!
# The value that is stored for an item

Without arrays the decoder stores one value for an item. For an item with elements it is the text
of each element with a blank after it, so a value that is not empty ends with a blank.
-/

namespace ScOpen

def joinedElements (k : PlainKind) : ℕ → Bytes → Bytes
  | 0, _ => []
  | n + 1, p => k.value (p.take k.width) ++ cstr " " ++ joinedElements k n (p.drop k.width)

def storedValue (fl : FloatText) (t : SecsType) (data : Bytes) : Bytes :=
  match t with
  | .list => []
  | .ascii => data
  | .elements t => joinedElements (t.plainKind fl) (data.length / (t.plainKind fl).width) data

theorem plainElements_value {k : PlainKind} {n : ℕ} {cursor' : Cursor}
    {rest log log' value value' : Bytes} (hlen : rest.length < 2 ^ 32)
    (h : plainElements k n (cursorAt rest) log value = .ok (cursor', log', value')) :
    value' = value ++ joinedElements k n rest ∧ cursor' = cursorAt (rest.drop (k.width * n)) := by
  induction n generalizing rest log value with
  | zero =>
      cases h
      simp [joinedElements]
  | succ n ih =>
      simp only [plainElements, bind_ok_iff, Prod.exists] at h
      obtain ⟨p, cursor, hread, hrun⟩ := h
      have hwidth := (Cursor.read_inv hread).1
      rw [cursorAt_read hlen hwidth] at hread
      cases hread
      obtain ⟨hvalue, hcursor⟩ := ih (by rw [List.length_drop]; omega) hrun
      rw [hvalue, hcursor]
      simp only [joinedElements, List.append_assoc, List.drop_drop, Nat.mul_succ, Nat.add_comm,
        true_and]

theorem ElementType.plainKind_width (fl : FloatText) (t : ElementType) :
    (t.plainKind fl).width = t.width := by
  cases t <;> rfl

/-- An item with data adds one variable, and nothing of the item is left to read. -/
theorem decodeBranchNoArrays_item (fl : FloatText) {name data : Bytes} {frames : List Frame}
    {st st' : DecodeState} {t : SecsType} (hdata : t.HoldsData data.length)
    (hcursor : st.cursor = cursorAt data) (hlen : data.length < 2 ^ 32)
    (h : decodeBranchNoArrays fl name frames data.length st t = .ok st') :
    st'.vars = st.vars ++ [(name, storedValue fl t data)] ∧ st'.cursor = cursorAt [] := by
  cases t with
  | list => exact hdata.elim
  | ascii =>
      simp only [decodeBranchNoArrays, hcursor, bind_ok_iff, Prod.exists] at h
      obtain ⟨text, -, p, cursor, hread, hrun⟩ := h
      rw [cursorAt_read hlen le_rfl] at hread
      cases hread
      rw [closeLists_vars hrun, closeLists_cursor hrun]
      simp [storedValue]
  | elements t =>
      simp only [decodeBranchNoArrays, plainElementItem, hcursor, bind_ok_iff, Prod.exists] at h
      obtain ⟨st₁, ⟨text, -, cursor, log, value, hrun, hret⟩, hclose⟩ := h
      cases hret
      obtain ⟨hvalue, hrest⟩ := plainElements_value hlen hrun
      rw [closeLists_vars hclose, closeLists_cursor hclose]
      refine ⟨by rw [hvalue]; rfl, ?_⟩
      have hwidth : t.width * (data.length / t.width) = data.length := Nat.mul_div_cancel' hdata
      simp only [hrest, t.plainKind_width, hwidth, List.drop_length]

theorem decodeTurnNoArrays_item (fl : FloatText) {varPrefix rest data : Bytes} {code : ℕ}
    {t : SecsType} {st : DecodeState} {r : TurnResult} (hcursor : st.cursor = cursorAt rest)
    (hlen : rest.length < 2 ^ 32) (hh : takeHeader rest = some (⟨code, data.length⟩, data))
    (ht : secsType? code = some t) (hdata : t.HoldsData data.length)
    (h : decodeTurnNoArrays fl varPrefix st = .ok r) :
    ∃ st' name, r = .next st' ∧ st'.vars = st.vars ++ [(name, storedValue fl t data)] ∧
      st'.cursor = cursorAt [] := by
  have hdatalen : data.length < 2 ^ 32 := (takeHeader_length hh).trans hlen
  obtain ⟨cursor, frames, pad, log, vars⟩ := st
  subst hcursor
  obtain ⟨p, hheader, h⟩ := bind_ok_iff.1 h
  rw [readItemHeader_ok hlen hh] at hheader
  cases hheader
  cases frames with
  | nil => cases h
  | cons top below =>
      obtain ⟨name, -, h⟩ := bind_ok_iff.1 h
      split at h
      · cases h
      · simp only [ht] at h
        obtain ⟨st', hrun, hret⟩ := bind_ok_iff.1 h
        cases hret
        obtain ⟨hvars, hrest⟩ := decodeBranchNoArrays_item fl hdata rfl hdatalen hrun
        exact ⟨st', name, rfl, hvars, hrest⟩

/-- The decoder stores the item's value and nothing else. -/
theorem secsDecodeNoArrays_item (fl : FloatText) {varPrefix data log : Bytes} {t : SecsType}
    {k status : ℕ} {body : MessageBody} {st : DecodeState} (hk : k ∈ [1, 2, 3])
    (hsize : data.length < 256 ^ k) (hdata : t.HoldsData data.length)
    (hbody : body.bytes = headerBytes t k data.length ++ data)
    (h : secsDecodeNoArrays fl varPrefix body log = .ok (status, st)) :
    ∃ name, st.vars = [(name, storedValue fl t data)] := by
  have hh := takeHeader_headerBytes (t := t) hk hsize data
  rw [← hbody] at hh
  have hlength : body.bytes.length ≠ 0 := by
    have hpos := takeHeader_length hh
    omega
  rw [secsDecodeNoArrays, decodeLoopNoArrays_eq, if_neg hlength] at h
  split at h
  · cases h
  · rename_i st' hturn
    obtain ⟨_, _, hnext, _⟩ := decodeTurnNoArrays_item fl rfl body.length_fits hh
      (secsType?_code t) hdata hturn
    cases hnext
  · rename_i st' hturn
    obtain ⟨_, name, hnext, hvars, hcursor⟩ := decodeTurnNoArrays_item fl rfl body.length_fits hh
      (secsType?_code t) hdata hturn
    cases hnext
    rw [decodeLoopNoArrays_eq, hcursor, if_pos (by rfl)] at h
    cases h
    exact ⟨name, hvars⟩

end ScOpen
