import Mathlib.Data.List.TakeDrop

/-!
# Reading and writing within allocated cells

A block of memory is the list of its cells. A read or a write that is not within the block has no
result.
-/

namespace Cells

variable {α : Type*}

def read (cells : List α) (k n : ℕ) : Option (List α) :=
  if k + n ≤ cells.length then some ((cells.drop k).take n) else none

def write (cells : List α) (k : ℕ) (text : List α) : Option (List α) :=
  if k + text.length ≤ cells.length then
    some (cells.take k ++ (text ++ cells.drop (k + text.length)))
  else none

section

variable {cells front old text back : List α} {k n : ℕ}

theorem write_isSome : (write cells k text).isSome ↔ k + text.length ≤ cells.length := by
  unfold write
  split
  · exact iff_of_true rfl ‹_›
  · exact iff_of_false Bool.false_ne_true ‹_›

/-- What stands between two other parts is read. -/
theorem read_append (hk : front.length = k) (hn : text.length = n) :
    read (front ++ (text ++ back)) k n = some text := by
  subst hk hn
  have hroom : front.length + text.length ≤ (front ++ (text ++ back)).length := by
    rw [List.length_append, List.length_append]
    omega
  rw [read, if_pos hroom, List.drop_left, List.take_left]

/-- What stands between two other parts is replaced. -/
theorem write_append (hk : front.length = k) (hold : old.length = text.length) :
    write (front ++ (old ++ back)) k text = some (front ++ (text ++ back)) := by
  subst hk
  have hroom : front.length + text.length ≤ (front ++ (old ++ back)).length := by
    rw [List.length_append, List.length_append]
    omega
  rw [write, if_pos hroom, List.take_left, ← hold, List.drop_length_add_append,
    List.drop_left]

theorem read_length (h : read cells k n = some text) : text.length = n := by
  unfold read at h
  split at h
  · cases h
    rw [List.length_take, List.length_drop]
    omega
  · cases h

/-- A write stays within the block, which does not grow. -/
theorem write_length {cells' : List α} (h : write cells k text = some cells') :
    k + text.length ≤ cells.length ∧ cells'.length = cells.length := by
  unfold write at h
  split at h
  · cases h
    refine ⟨‹_›, ?_⟩
    rw [List.length_append, List.length_append, List.length_take, List.length_drop]
    omega
  · cases h

theorem exists_split (h : k + n ≤ cells.length) :
    ∃ old back, cells = cells.take k ++ (old ++ back) ∧ old.length = n := by
  refine ⟨(cells.drop k).take n, (cells.drop k).drop n, ?_, ?_⟩
  · rw [List.take_append_drop, List.take_append_drop]
  · rw [List.length_take, List.length_drop]
    omega

end

end Cells
