import Mathlib.Algebra.Order.Group.Basic
import Mathlib.Data.List.Induction

/-!
# Scans for deadlines

Some members of a table have a deadline. One scan finds how long it is to the first of them, and
how many there are; another one finds the member whose deadline is over for the longest time.
-/

namespace Deadlines

variable {ι T : Type*} [AddCommGroup T] [LinearOrder T] (t : T) (due : ι → Option T)

def soonestTurn (found : T × ℕ) (i : ι) : T × ℕ :=
  (due i).elim found fun e => (if found.1 < e - t then found.1 else e - t, found.2 + 1)

def overdueTurn (found : T × Option ι) (i : ι) : T × Option ι :=
  (due i).elim found fun e =>
    if e ≤ t then if found.1 ≤ t - e then (t - e, some i) else found else found

/-! ## The first deadline -/

section

variable {t due}

theorem soonestTurn_none {i : ι} (h : due i = none) (found : T × ℕ) :
    soonestTurn t due found i = found := by rw [soonestTurn, h, Option.elim_none]

theorem soonestTurn_some {i : ι} {e : T} (h : due i = some e) (found : T × ℕ) :
    soonestTurn t due found i = (min found.1 (e - t), found.2 + 1) := by
  rw [soonestTurn, h, Option.elim_some, min_def_lt]

theorem soonest_count (is : List ι) (found : T × ℕ) :
    (is.foldl (soonestTurn t due) found).2 = found.2 + is.countP fun i => (due i).isSome := by
  induction is generalizing found with
  | nil => rfl
  | cons i is ih =>
      rw [List.foldl_cons, ih, List.countP_cons]
      cases h : due i with
      | none =>
          rw [soonestTurn_none h]
          rfl
      | some e =>
          rw [soonestTurn_some h]
          exact Nat.add_right_comm ..

/-- The time that is found is no more than the first one, or that to a deadline. -/
theorem soonest_le (is : List ι) (found : T × ℕ) :
    (is.foldl (soonestTurn t due) found).1 ≤ found.1 ∧
      ∀ i ∈ is, ∀ e, due i = some e → (is.foldl (soonestTurn t due) found).1 ≤ e - t := by
  induction is generalizing found with
  | nil => exact ⟨le_refl _, nofun⟩
  | cons i is ih =>
      obtain ⟨hle, hleast⟩ := ih (soonestTurn t due found i)
      rw [List.foldl_cons]
      cases h : due i with
      | none =>
          rw [soonestTurn_none h] at hle hleast ⊢
          refine ⟨hle, fun j hj e he => ?_⟩
          rcases List.mem_cons.1 hj with rfl | hj
          · rw [h] at he
            cases he
          · exact hleast j hj e he
      | some e =>
          rw [soonestTurn_some h] at hle hleast ⊢
          refine ⟨hle.trans (min_le_left _ _), fun j hj e' he => ?_⟩
          rcases List.mem_cons.1 hj with rfl | hj
          · rw [h] at he
            cases he
            exact hle.trans (min_le_right _ _)
          · exact hleast j hj e' he

/-- It is one of them. -/
theorem soonest_eq (is : List ι) (found : T × ℕ) :
    (is.foldl (soonestTurn t due) found).1 = found.1 ∨
      ∃ i ∈ is, ∃ e, due i = some e ∧ (is.foldl (soonestTurn t due) found).1 = e - t := by
  induction is generalizing found with
  | nil => exact .inl rfl
  | cons i is ih =>
      rw [List.foldl_cons]
      rcases ih (soonestTurn t due found i) with heq | ⟨j, hj, e, he, heq⟩
      · cases h : due i with
        | none =>
            rw [soonestTurn_none h] at heq ⊢
            exact .inl heq
        | some e =>
            rw [soonestTurn_some h] at heq ⊢
            rcases min_choice found.1 (e - t) with hmin | hmin
            · exact .inl (heq.trans hmin)
            · exact .inr ⟨i, List.mem_cons_self, e, h, heq.trans hmin⟩
      · exact .inr ⟨j, List.mem_cons_of_mem i hj, e, he, heq⟩

/-! ## The longest overdue one -/

def Found (t : T) (due : ι → Option T) (is : List ι) (found : T × Option ι) : Prop :=
  match found.2 with
  | none => found.1 = 0 ∧ ∀ i ∈ is, ∀ e, due i = some e → t < e
  | some i => ∃ e, i ∈ is ∧ due i = some e ∧ e ≤ t ∧ found.1 = t - e ∧
      ∀ j ∈ is, ∀ e', due j = some e' → e' ≤ t → e ≤ e'

theorem Found.of_some {is : List ι} {found : T × Option ι} (h : Found t due is found) {i : ι}
    (hi : found.2 = some i) : ∃ e, i ∈ is ∧ due i = some e ∧ e ≤ t ∧ found.1 = t - e ∧
      ∀ j ∈ is, ∀ e', due j = some e' → e' ≤ t → e ≤ e' := by
  obtain ⟨m, _⟩ := found
  cases hi
  exact h

theorem Found.of_none {is : List ι} {found : T × Option ι} (h : Found t due is found)
    (hnone : found.2 = none) : ∀ i ∈ is, ∀ e, due i = some e → t < e := by
  obtain ⟨m, _⟩ := found
  cases hnone
  exact h.2

variable [IsOrderedAddMonoid T]

theorem Found.keep {is : List ι} {found : T × Option ι} (h : Found t due is found) {i : ι}
    (hi : ∀ e, due i = some e → e ≤ t → t - e < found.1) : Found t due (is ++ [i]) found := by
  rcases found with ⟨m, _ | k⟩
  · obtain ⟨rfl, hnone⟩ := h
    refine ⟨rfl, fun j hj e he => ?_⟩
    rcases List.mem_append.1 hj with hj | hj
    · exact hnone j hj e he
    · obtain rfl := List.mem_singleton.1 hj
      by_contra hover
      exact absurd (hi e he (not_lt.1 hover)) (not_lt.2 (sub_nonneg.2 (not_lt.1 hover)))
  · obtain ⟨e, hk, hdue, he, rfl, hleast⟩ := h
    refine ⟨e, List.mem_append_left _ hk, hdue, he, rfl, fun j hj e' he' hover => ?_⟩
    rcases List.mem_append.1 hj with hj | hj
    · exact hleast j hj e' he' hover
    · obtain rfl := List.mem_singleton.1 hj
      exact (sub_lt_sub_iff_left t).1 (hi e' he' hover) |>.le

theorem Found.take {is : List ι} {found : T × Option ι} (h : Found t due is found) {i : ι} {e : T}
    (hdue : due i = some e) (he : e ≤ t) (hle : found.1 ≤ t - e) :
    Found t due (is ++ [i]) (t - e, some i) := by
  refine ⟨e, List.mem_append_right _ (List.mem_singleton_self i), hdue, he, rfl,
    fun j hj e' he' hover => ?_⟩
  rcases List.mem_append.1 hj with hj | hj
  · rcases found with ⟨m, _ | k⟩
    · exact absurd hover (not_le.2 (h.2 j hj e' he'))
    · obtain ⟨f, -, -, -, rfl, hleast⟩ := h
      exact ((sub_le_sub_iff_left t).1 hle).trans (hleast j hj e' he' hover)
  · obtain rfl := List.mem_singleton.1 hj
    rw [hdue] at he'
    cases he'
    exact le_refl _

theorem Found.turn {is : List ι} {found : T × Option ι} (h : Found t due is found) (i : ι) :
    Found t due (is ++ [i]) (overdueTurn t due found i) := by
  cases hdue : due i with
  | none =>
      rw [overdueTurn, hdue]
      exact h.keep fun e he => by rw [hdue] at he; cases he
  | some e =>
      rw [overdueTurn, hdue, Option.elim_some]
      have hself : ∀ e', due i = some e' → e' = e := fun e' he' =>
        Option.some.inj (he'.symm.trans hdue)
      by_cases he : e ≤ t
      · rw [if_pos he]
        by_cases hle : found.1 ≤ t - e
        · rw [if_pos hle]
          exact h.take hdue he hle
        · rw [if_neg hle]
          exact h.keep fun e' he' _ => hself e' he' ▸ not_le.1 hle
      · rw [if_neg he]
        exact h.keep fun e' he' hover => absurd (hself e' he' ▸ hover) he

theorem overdue_found (is : List ι) :
    Found t due is (is.foldl (overdueTurn t due) (0, none)) := by
  induction is using List.reverseRec with
  | nil => exact ⟨rfl, nofun⟩
  | append_singleton is i ih =>
      rw [List.foldl_append, List.foldl_cons, List.foldl_nil]
      exact ih.turn i

end

end Deadlines
