import Mathlib.Data.Set.Basic

/-!
# States that agree outside of a set of cells

A state is seen through the values of its cells. Two states agree off a set when only cells of the
set tell them apart. Writing the same value to a cell of both takes the cell out of the set.
-/

namespace Agreement

variable {κ σ α : Type}

def AgreeOff (value : κ → σ → Option α) (D : Set κ) (u v : σ) : Prop :=
  ∀ c ∉ D, value c u = value c v

structure Writes (value : κ → σ → Option α) (c : κ) (put : α → σ → σ) : Prop where
  same : ∀ a u, value c (put a u) = some a
  other : ∀ a u d, d ≠ c → value d (put a u) = value d u

variable {value : κ → σ → Option α} {D E : Set κ} {u v w : σ} {c : κ} {put : α → σ → σ}

theorem AgreeOff.refl (D : Set κ) (u : σ) : AgreeOff value D u u := fun _ _ => rfl

theorem AgreeOff.symm (h : AgreeOff value D u v) : AgreeOff value D v u :=
  fun c hc => (h c hc).symm

theorem AgreeOff.trans (h : AgreeOff value D u v) (h' : AgreeOff value D v w) :
    AgreeOff value D u w :=
  fun c hc => (h c hc).trans (h' c hc)

theorem AgreeOff.mono (hDE : D ⊆ E) (h : AgreeOff value D u v) : AgreeOff value E u v :=
  fun c hc => h c fun hD => hc (hDE hD)

theorem AgreeOff.union (h : AgreeOff value D u v) (h' : AgreeOff value E v w) :
    AgreeOff value (D ∪ E) u w :=
  (h.mono Set.subset_union_left).trans (h'.mono Set.subset_union_right)

theorem AgreeOff.of_empty (h : AgreeOff value ∅ u v) : AgreeOff value D u v :=
  h.mono (Set.empty_subset D)

/-- The same value in both states. -/
theorem Writes.agree (hput : Writes value c put) (a : α) (h : AgreeOff value D u v) :
    AgreeOff value (D \ {c}) (put a u) (put a v) := by
  intro d hd
  by_cases hdc : d = c
  · rw [hdc, hput.same, hput.same]
  · rw [hput.other a u d hdc, hput.other a v d hdc]
    exact h d fun hD => hd ⟨hD, hdc⟩

theorem Writes.away (hput : Writes value c put) (a : α) (u : σ) :
    AgreeOff value {c} u (put a u) :=
  fun d hd => (hput.other a u d hd).symm

end Agreement
