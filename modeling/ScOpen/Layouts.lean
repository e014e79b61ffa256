import Mathlib.Data.List.Basic

/-!
# Elements of different lengths in one array

Elements are written into an array one after another, each with its own length. Where an element
starts tells nothing of how many there are in front of it, but reading from the start of one gives
that element and where the next one starts.
-/

namespace Layouts

structure Format (α β γ : Type*) where
  write : α → List β
  value : α → γ
  read : List β → γ × ℕ
  read_write : ∀ a rest, read (write a ++ rest) = (value a, (write a).length)
  write_ne_nil : ∀ a, write a ≠ []

section

variable {α β γ : Type*} (f : Format α β γ)

def Format.array (xs : List α) : List β := xs.flatMap f.write

def Format.offset (xs : List α) (k : ℕ) : ℕ := (f.array (xs.take k)).length

theorem Format.array_cons (a : α) (xs : List α) : f.array (a :: xs) = f.write a ++ f.array xs := rfl

theorem Format.array_append (xs ys : List α) : f.array (xs ++ ys) = f.array xs ++ f.array ys :=
  List.flatMap_append

theorem Format.drop_offset (xs : List α) (k : ℕ) :
    (f.array xs).drop (f.offset xs k) = f.array (xs.drop k) := by
  have hsplit : f.array xs = f.array (xs.take k) ++ f.array (xs.drop k) := by
    rw [← f.array_append, List.take_append_drop]
  rw [hsplit, Format.offset, List.drop_left]

theorem Format.offset_succ {xs : List α} {k : ℕ} {a : α} (h : xs[k]? = some a) :
    f.offset xs (k + 1) = f.offset xs k + (f.write a).length := by
  rw [Format.offset, Format.offset, List.take_add_one, h, f.array_append, List.length_append]
  congr 2
  exact List.append_nil _

theorem Format.offset_end {xs : List α} {k : ℕ} (h : xs.length ≤ k) :
    f.offset xs k = (f.array xs).length := by
  rw [Format.offset, List.take_of_length_le h]

theorem Format.offset_lt {xs : List α} {k : ℕ} (h : k < xs.length) :
    f.offset xs k < (f.array xs).length := by
  have hrest := congrArg List.length (f.drop_offset xs k)
  rw [List.drop_eq_getElem_cons h, f.array_cons, List.length_drop, List.length_append] at hrest
  have hpos := List.length_pos_of_ne_nil (f.write_ne_nil xs[k])
  omega

/-- Reading from where an element starts. -/
theorem Format.read_offset {xs : List α} {k : ℕ} {a : α} (h : xs[k]? = some a) :
    f.read ((f.array xs).drop (f.offset xs k)) = (f.value a, (f.write a).length) := by
  obtain ⟨hlt, rfl⟩ := List.getElem?_eq_some_iff.1 h
  rw [f.drop_offset, List.drop_eq_getElem_cons hlt, f.array_cons, f.read_write]

end

end Layouts
