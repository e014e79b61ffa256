import Mathlib.Data.Int.Basic
import Mathlib.Data.List.Basic

/-!
# Stacks with numbered entries

A stack is kept as its height and a store that holds each entry under its number, counted from the
bottom. Its owners share it, and each of them would like to have a stack of its own.
-/

namespace NumberedStacks

variable {ι β : Type*}

def Stored (holds : ℤ → β → Prop) : List (ι × β) → Prop
  | [] => True
  | x :: xs => holds (xs.length + 1) x.2 ∧ Stored holds xs

structure Represents (height : ℤ) (holds : ℤ → β → Prop) (xs : List (ι × β)) : Prop where
  height : height = xs.length
  stored : Stored holds xs

section

variable {height : ℤ} {holds holds' : ℤ → β → Prop} {x : ι × β} {xs : List (ι × β)}

theorem Stored.imp (h : Stored holds xs)
    (hkept : ∀ n ≤ (xs.length : ℤ), ∀ v, holds n v → holds' n v) : Stored holds' xs := by
  induction xs with
  | nil => trivial
  | cons x xs ih =>
      have hlen : ((x :: xs).length : ℤ) = xs.length + 1 := Int.natCast_succ xs.length
      refine ⟨hkept _ (Int.le_of_eq hlen.symm) _ h.1, ih h.2 ?_⟩
      intro n hn
      apply hkept
      omega

theorem represents_nil (holds : ℤ → β → Prop) : Represents 0 holds ([] : List (ι × β)) :=
  ⟨rfl, trivial⟩

/-- What is held under the numbers up to the height is still held. -/
theorem Represents.keep (h : Represents height holds xs)
    (hkept : ∀ n ≤ height, ∀ v, holds n v → holds' n v) : Represents height holds' xs := by
  refine ⟨h.height, h.stored.imp ?_⟩
  rw [← h.height]
  exact hkept

theorem Represents.push (h : Represents height holds xs) (hnew : holds' (height + 1) x.2)
    (hkept : ∀ n ≤ height, ∀ v, holds n v → holds' n v) :
    Represents (height + 1) holds' (x :: xs) := by
  refine ⟨?_, ?_, (h.keep hkept).stored⟩
  · rw [h.height]
    exact (Int.natCast_succ xs.length).symm
  · rw [← h.height]
    exact hnew

theorem Represents.pop (h : Represents height holds (x :: xs)) :
    Represents (height - 1) holds xs := by
  refine ⟨?_, h.stored.2⟩
  have hheight := h.height
  rw [List.length_cons] at hheight
  omega

theorem Represents.top (h : Represents height holds (x :: xs)) : holds height x.2 := by
  have hheight : height = xs.length + 1 := h.height.trans (Int.natCast_succ xs.length)
  rw [hheight]
  exact h.stored.1

theorem Represents.one_le (h : Represents height holds (x :: xs)) : 1 ≤ height := by
  have hheight := h.height
  rw [List.length_cons] at hheight
  omega

end

/-! ## The owners -/

section

variable [DecidableEq ι]

def own (a : ι) (xs : List (ι × β)) : Option β := (xs.find? fun x => x.1 = a).map Prod.snd

def leave (a : ι) (xs : List (ι × β)) : List (ι × β) := xs.eraseP fun x => x.1 = a

def leaveAll (a : ι) (xs : List (ι × β)) : List (ι × β) := xs.filter fun x => x.1 ≠ a

def Last (a : ι) (xs : List (ι × β)) : Prop := ∀ x ∈ xs.head?, x.1 = a

variable {a : ι} {x : ι × β} {xs : List (ι × β)}

theorem Last.own_cons (h : Last a (x :: xs)) : own a (x :: xs) = some x.2 := by
  have hfind : (x :: xs).find? (fun x => x.1 = a) = some x :=
    List.find?_cons_of_pos (decide_eq_true (h x rfl))
  rw [own, hfind]
  rfl

theorem Last.leave_cons (h : Last a (x :: xs)) : leave a (x :: xs) = xs :=
  List.eraseP_cons_of_pos (decide_eq_true (h x rfl))

theorem leave_nil (a : ι) : leave a ([] : List (ι × β)) = [] := rfl

/-- The owner of the newest entry gives that one back. -/
theorem Represents.leave {height : ℤ} {holds : ℤ → β → Prop} (h : Represents height holds xs)
    (hne : xs ≠ []) (hlast : Last a xs) : Represents (height - 1) holds (leave a xs) := by
  cases xs with
  | nil => exact absurd rfl hne
  | cons x xs =>
      rw [hlast.leave_cons]
      exact h.pop

theorem leaveAll_eq_nil (h : ∀ x ∈ xs, x.1 = a) : leaveAll a xs = [] := by
  apply List.filter_eq_nil_iff.2
  intro x hx
  rw [decide_eq_true_eq, not_not]
  exact h x hx

end

end NumberedStacks
