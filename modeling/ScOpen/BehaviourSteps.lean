import ScOpen.CodeBehaviour

/-!
# From the steps of a program back to its meaning

A run that comes to the end of all blocks leaves every piece of code on its way, and leaves it as
the meaning of the piece tells. So the meaning of a program is all that its steps can do.
-/

namespace ScOpen

open Outcomes Settling

section

variable {σ : Type} {subs : ℕ → Option (Code σ)}

/-! ## Deeper calls -/

mutual

theorem Code.behaviour_mono {f g : ℕ → Behaviour σ} (h : f ≤ g) (c : Code σ) :
    c.behaviour f ≤ c.behaviour g := by
  cases c with
  | done => exact le_rfl
  | filler f next => exact next.behaviour_mono h
  | statement s next => exact andThen_mono le_rfl (next.behaviour_mono h)
  | ifThen c body rest next =>
      refine andThen_mono (choosing_mono fun b => ?_) (next.behaviour_mono h)
      cases b with
      | true => exact body.behaviour_mono h
      | false => exact rest.behaviour_mono h
  | whileLoop c body next =>
      refine andThen_mono (choosing_mono fun b => ?_) (next.behaviour_mono h)
      cases b with
      | true => exact rounds_mono (only_mono (body.behaviour_mono h) _) _
      | false => exact le_rfl
  | forLoop head body next =>
      refine andThen_mono (choosing_mono fun entry => ?_) (next.behaviour_mono h)
      by_cases hskip : entry.first > entry.limit
      · rw [if_pos hskip, if_pos hskip]
      · rw [if_neg hskip, if_neg hskip]
        exact rounds_mono (only_mono (body.behaviour_mono h) _) _
  | continue_ next => exact le_rfl
  | breakLoop next => exact le_rfl
  | call c next => exact andThen_mono (called_mono (h c.target) _) (next.behaviour_mono h)
  | return_ next => exact le_rfl

theorem Branches.behaviour_mono {f g : ℕ → Behaviour σ} (h : f ≤ g) (b : Branches σ) :
    b.behaviour f ≤ b.behaviour g := by
  cases b with
  | endIf => exact le_rfl
  | else_ body => exact body.behaviour_mono h
  | elseIf c body rest =>
      apply choosing_mono
      intro b
      cases b with
      | true => exact body.behaviour_mono h
      | false => exact rest.behaviour_mono h

end

theorem subroutines_succ (subs : ℕ → Option (Code σ)) (n : ℕ) :
    subroutines subs n ≤ subroutines subs (n + 1) := by
  induction n with
  | zero =>
      intro target s e t h
      exact h.elim
  | succ n ih =>
      rintro target s e t ⟨body, hbody, h⟩
      exact ⟨body, hbody, body.behaviour_mono ih s e t h⟩

theorem subroutines_mono (subs : ℕ → Option (Code σ)) {n m : ℕ} (h : n ≤ m) :
    subroutines subs n ≤ subroutines subs m :=
  monotone_nat_of_le_succ (subroutines_succ subs) h

theorem Code.deeper (c : Code σ) {n m : ℕ} (hle : n ≤ m) {s t : σ} {e : Exit}
    (h : c.behaviour (subroutines subs n) s e t) : c.behaviour (subroutines subs m) s e t :=
  c.behaviour_mono (subroutines_mono subs hle) s e t h

/-! ## Where steps come from -/

def Machine.over (t : σ) : Machine σ := ⟨.done, [], t⟩

def LeavesOut (subs : ℕ → Option (Code σ)) (n : ℕ) (c : Code σ) (blocks : List (Block σ))
    (s z : σ) : Prop :=
  ∃ e t m k, c.behaviour (subroutines subs n) s e t ∧ Arrives blocks t e m ∧
    Steps (FitStep subs) k m (.over z) ∧ k ≤ n

/-- The first part of the code is done, and a run leaves the rest of it. -/
theorem LeavesOut.andThen {n k : ℕ} {c next : Code σ} {a : Behaviour σ} {blocks : List (Block σ)}
    {s u z : σ} (hmeaning : c.behaviour (subroutines subs n) =
      Outcomes.andThen a (next.behaviour (subroutines subs n)))
    (ha : a s .falls u) (hnext : LeavesOut subs k next blocks u z) (hk : k ≤ n) :
    LeavesOut subs n c blocks s z := by
  obtain ⟨e, t, m, j, hbehaviour, harrives, hsteps, hj⟩ := hnext
  refine ⟨e, t, m, j, ?_, harrives, hsteps, hj.trans hk⟩
  rw [hmeaning]
  exact .inl ⟨u, ha, next.deeper hk hbehaviour⟩

theorem LeavesOut.out {n k : ℕ} {c next : Code σ} {a : Behaviour σ} {blocks : List (Block σ)}
    {s t z : σ} {e : Exit} {m : Machine σ} (hmeaning : c.behaviour (subroutines subs n) =
      Outcomes.andThen a (next.behaviour (subroutines subs n)))
    (ha : a s e t) (he : e ≠ .falls) (harrives : Arrives blocks t e m)
    (hsteps : Steps (FitStep subs) k m (.over z)) (hk : k ≤ n) : LeavesOut subs n c blocks s z := by
  refine ⟨e, t, m, k, ?_, harrives, hsteps, hk⟩
  rw [hmeaning]
  exact .inr ⟨he, ha⟩

variable {n k : ℕ} {blocks : List (Block σ)} {s u z : σ} {body next : Code σ}

end

end ScOpen
