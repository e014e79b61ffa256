import Mathlib.Data.Set.Finite.Lattice
import Mathlib.Logic.Function.Iterate

/-!
# Runs that have a result

A deterministic step gives the next state, or a result with which the run is over. A run has a
result when something decreases with every step, and then it has finitely many states; it has none
when it stays in states that all go on.
-/

namespace Halting

variable {σ ρ : Type*} {step : σ → σ ⊕ ρ}

inductive Reaches (step : σ → σ ⊕ ρ) (s : σ) : σ → Prop
  | refl : Reaches step s s
  | next {s₁ s₂ : σ} (hs : Reaches step s s₁) (hstep : step s₁ = .inl s₂) : Reaches step s s₂

def Results (step : σ → σ ⊕ ρ) (s : σ) (r : ρ) : Prop := ∃ s', Reaches step s s' ∧ step s' = .inr r

def run (step : σ → σ ⊕ ρ) : ℕ → σ → Option ρ
  | 0, _ => none
  | n + 1, s => (step s).elim (run step n) some

theorem Reaches.head {s s₁ s₂ : σ} (hstep : step s = .inl s₁) (h : Reaches step s₁ s₂) :
    Reaches step s s₂ := by
  induction h with
  | refl => exact .next .refl hstep
  | next _ hnext ih => exact ih.next hnext

theorem Reaches.trans {s s₁ s₂ : σ} (h : Reaches step s s₁) (h' : Reaches step s₁ s₂) :
    Reaches step s s₂ := by
  induction h' with
  | refl => exact h
  | next _ hnext ih => exact ih.next hnext

/-- A state that is reached is the first one or lies behind the first step. -/
theorem Reaches.cases_head {s s₂ : σ} (h : Reaches step s s₂) :
    s₂ = s ∨ ∃ s₁, step s = .inl s₁ ∧ Reaches step s₁ s₂ := by
  induction h with
  | refl => exact .inl rfl
  | next hs hnext ih =>
      rcases ih with rfl | ⟨s₁, hstep, hrest⟩
      · exact .inr ⟨_, hnext, .refl⟩
      · exact .inr ⟨s₁, hstep, hrest.next hnext⟩

theorem Reaches.invariant {inv : σ → Prop} {s s' : σ} (hstart : inv s)
    (hnext : ∀ s₁ s₂, inv s₁ → step s₁ = .inl s₂ → inv s₂) (h : Reaches step s s') : inv s' := by
  induction h with
  | refl => exact hstart
  | next _ hstep ih => exact hnext _ _ ih hstep

theorem Reaches.iterate {f : σ → σ} {s : σ} {n : ℕ}
    (hnext : ∀ k < n, step (f^[k] s) = .inl (f (f^[k] s))) : Reaches step s (f^[n] s) := by
  induction n with
  | zero => exact .refl
  | succ n ih =>
      rw [Function.iterate_succ_apply']
      exact (ih fun k hk => hnext k (Nat.lt_succ_of_lt hk)).next (hnext n n.lt_succ_self)

/-- Two steps have the same result when they agree in all the states that are reached. -/
theorem run_congr {step' : σ → σ ⊕ ρ} {s : σ} (h : ∀ s', Reaches step s s' → step' s' = step s')
    (n : ℕ) : run step' n s = run step n s := by
  induction n generalizing s with
  | zero => rfl
  | succ n ih =>
      rw [run, run, h s .refl]
      cases hstep : step s with
      | inl s' => exact ih fun s'' hs'' => h s'' (.head hstep hs'')
      | inr r => rfl

theorem Results.head {s s' : σ} {r : ρ} (hstep : step s = .inl s') (h : Results step s' r) :
    Results step s r := by
  obtain ⟨s₁, hs₁, hr⟩ := h
  exact ⟨s₁, .head hstep hs₁, hr⟩

theorem Results.tail {s s' : σ} {r : ρ} (hstep : step s = .inl s') (h : Results step s r) :
    Results step s' r := by
  obtain ⟨s₁, hs₁, hr⟩ := h
  rcases hs₁.cases_head with rfl | ⟨s₂, hs₂, hrest⟩
  · rw [hstep] at hr
    cases hr
  · rw [hstep] at hs₂
    cases hs₂
    exact ⟨s₁, hrest, hr⟩

/-- The result of a run is the result from each of its states. -/
theorem Results.later {s s' : σ} {r : ρ} (hs : Reaches step s s') (h : Results step s r) :
    Results step s' r := by
  induction hs with
  | refl => exact h
  | next _ hstep ih => exact ih.tail hstep

/-- There is one result at most. -/
theorem Results.unique {s : σ} {r r' : ρ} (h : Results step s r) (h' : Results step s r') :
    r = r' := by
  obtain ⟨s₁, hs₁, hr⟩ := h
  obtain ⟨s₂, hs₂, hr'⟩ := h'.later hs₁
  rcases hs₂.cases_head with rfl | ⟨_, hstep, _⟩
  · rw [hr] at hr'
    exact Sum.inr.inj hr'
  · rw [hr] at hstep
    cases hstep

/-- There is a result when something decreases along all the states that are reached. -/
theorem results_of_measure {α : Type*} {lt : α → α → Prop} (hlt : WellFounded lt) (f : σ → α)
    (s : σ) (hdecreases : ∀ s₁ s₂, Reaches step s s₁ → step s₁ = .inl s₂ → lt (f s₂) (f s₁)) :
    ∃ r, Results step s r := by
  induction hf : f s using hlt.induction generalizing s with
  | _ a ih =>
      cases hstep : step s with
      | inr r => exact ⟨r, s, .refl, hstep⟩
      | inl s' =>
          have hlower : lt (f s') a := hf ▸ hdecreases s s' .refl hstep
          obtain ⟨r, hr⟩ := ih (f s') hlower s'
            (fun s₁ s₂ hs₁ => hdecreases s₁ s₂ (.head hstep hs₁)) rfl
          exact ⟨r, hr.head hstep⟩

theorem not_results_of_closed {inv : σ → Prop}
    (hclosed : ∀ s, inv s → ∃ s', step s = .inl s' ∧ inv s') {s : σ} (hs : inv s) (r : ρ) :
    ¬ Results step s r := by
  rintro ⟨s', hreached, hr⟩
  have hinv : inv s' := by
    refine hreached.invariant hs fun s₁ s₂ hinv hstep => ?_
    obtain ⟨s₃, hnext, hinv'⟩ := hclosed s₁ hinv
    rw [hstep] at hnext
    cases hnext
    exact hinv'
  obtain ⟨s₁, hnext, -⟩ := hclosed s' hinv
  rw [hr] at hnext
  cases hnext

/-- A run with a result has finitely many states. -/
theorem Results.finite {s : σ} {r : ρ} (h : Results step s r) : {s' | Reaches step s s'}.Finite := by
  obtain ⟨last, hlast, hr⟩ := h
  have hstates : ∃ states : Set σ, states.Finite ∧ ∀ s', Reaches step s s' →
      s' ∈ states ∨ Reaches step last s' := by
    clear hr
    induction hlast with
    | refl => exact ⟨∅, Set.finite_empty, fun s' hs' => .inr hs'⟩
    | @next s₁ s₂ hs₁ hstep ih =>
        obtain ⟨states, hfinite, hall⟩ := ih
        refine ⟨insert s₁ states, hfinite.insert s₁, fun s' hs' => ?_⟩
        rcases hall s' hs' with hmem | hreached
        · exact .inl (Set.mem_insert_of_mem _ hmem)
        · rcases hreached.cases_head with rfl | ⟨s₃, hstep', hrest⟩
          · exact .inl (Set.mem_insert _ _)
          · rw [hstep] at hstep'
            cases hstep'
            exact .inr hrest
  obtain ⟨states, hfinite, hall⟩ := hstates
  refine (hfinite.insert last).subset fun s' hs' => ?_
  rcases hall s' hs' with hmem | hreached
  · exact Set.mem_insert_of_mem _ hmem
  · rcases hreached.cases_head with rfl | ⟨_, hstep, _⟩
    · exact Set.mem_insert _ _
    · rw [hr] at hstep
      cases hstep

end Halting
