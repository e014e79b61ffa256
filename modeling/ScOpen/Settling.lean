import Mathlib.Data.Nat.Notation
import Mathlib.Logic.Relation
import Mathlib.Order.WellFounded

/-!
# Quiet steps and choices

A system takes quiet steps, which are forced, and choices. When a quiet step can be made up for
after any other step, it does not matter when it is taken: every run is known from the settled
states, in which only choices are left, and from what each choice there leads to.
-/

namespace Settling

variable {σ : Type*} {quiet choice : σ → σ → Prop}

inductive Steps (step : σ → σ → Prop) : ℕ → σ → σ → Prop
  | refl (a : σ) : Steps step 0 a a
  | head {n : ℕ} {a b c : σ} (hstep : step a b) (h : Steps step n b c) : Steps step (n + 1) a c

/-- No step is left. -/
def Final (step : σ → σ → Prop) (a : σ) : Prop := ∀ b, ¬ step a b

/-- A step of either kind. -/
def Either (quiet choice : σ → σ → Prop) (a b : σ) : Prop := quiet a b ∨ choice a b

structure Commutes (quiet choice : σ → σ → Prop) : Prop where
  diamond : ∀ {a b c}, quiet a b → quiet a c → b = c ∨ ∃ d, quiet b d ∧ quiet c d
  postpone : ∀ {a b c}, quiet a b → choice a c → ∃ d, choice b d ∧ quiet c d

/-- So many quiet steps are left before only choices are. -/
structure Settles (quiet : σ → σ → Prop) (n : ℕ) (a z : σ) : Prop where
  steps : Steps quiet n a z
  final : Final quiet z

theorem Steps.one {step : σ → σ → Prop} {a b : σ} (h : step a b) : Steps step 1 a b :=
  .head h (.refl b)

theorem Steps.trans {step : σ → σ → Prop} {n m : ℕ} {a b c : σ} (h : Steps step n a b)
    (h' : Steps step m b c) : Steps step (n + m) a c := by
  induction h with
  | refl => simpa using h'
  | @head n a b' b hstep _ ih =>
      rw [Nat.add_right_comm]
      exact .head hstep (ih h')

theorem Steps.reflTransGen {step : σ → σ → Prop} {n : ℕ} {a b : σ} (h : Steps step n a b) :
    Relation.ReflTransGen step a b := by
  induction h with
  | refl => exact .refl
  | head hstep _ ih => exact .head hstep ih

/-- Some number of steps leads there. -/
def Leads (step : σ → σ → Prop) (a b : σ) : Prop := ∃ n, Steps step n a b

theorem Steps.leads {step : σ → σ → Prop} {n : ℕ} {a b : σ} (h : Steps step n a b) :
    Leads step a b := ⟨n, h⟩

theorem Leads.trans {step : σ → σ → Prop} {a b c : σ} (h : Leads step a b)
    (h' : Leads step b c) : Leads step a c := by
  obtain ⟨n, hn⟩ := h
  obtain ⟨m, hm⟩ := h'
  exact ⟨n + m, hn.trans hm⟩

theorem Leads.settles {a z : σ} (h : Leads quiet a z) (hz : Final quiet z) :
    ∃ n, Settles quiet n a z := by
  obtain ⟨n, hn⟩ := h
  exact ⟨n, hn, hz⟩

theorem Settles.eq_of_final {n : ℕ} {a z : σ} (h : Settles quiet n a z) (ha : Final quiet a) :
    a = z := by
  obtain ⟨hsteps, -⟩ := h
  cases hsteps with
  | refl => rfl
  | head hstep _ => exact absurd hstep (ha _)

/-- A quiet step is one of those that are left. -/
theorem Settles.quiet_step (hcommutes : Commutes quiet choice) {n : ℕ} {a b z : σ}
    (h : Settles quiet n a z) (hstep : quiet a b) : ∃ k, n = k + 1 ∧ Settles quiet k b z := by
  obtain ⟨hsteps, hfinal⟩ := h
  induction hsteps generalizing b with
  | refl => exact absurd hstep (hfinal b)
  | @head n a c z hfirst hrest ih =>
      refine ⟨n, rfl, ?_⟩
      rcases hcommutes.diamond hstep hfirst with rfl | ⟨d, hd, hd'⟩
      · exact ⟨hrest, hfinal⟩
      · obtain ⟨k, rfl, hk⟩ := ih hd' hfinal
        exact ⟨.head hd hk.steps, hfinal⟩

/-- A choice can be put off until the quiet steps are taken. -/
theorem Steps.choice_step (hcommutes : Commutes quiet choice) {n : ℕ} {a b z : σ}
    (h : Steps quiet n a z) (hstep : choice a b) : ∃ z', choice z z' ∧ Steps quiet n b z' := by
  induction h generalizing b with
  | refl a => exact ⟨b, hstep, .refl b⟩
  | @head n a c z hfirst _ ih =>
      obtain ⟨d, hd, hd'⟩ := hcommutes.postpone hfirst hstep
      obtain ⟨z', hz, hsteps⟩ := ih hd
      exact ⟨z', hz, .head hd' hsteps⟩

theorem Settles.choice_step (hcommutes : Commutes quiet choice) {n : ℕ} {a b z : σ}
    (h : Settles quiet n a z) (hstep : choice a b) :
    ∃ z', choice z z' ∧ ∀ m w, Settles quiet m z' w → Settles quiet (n + m) b w := by
  obtain ⟨z', hz, hsteps⟩ := h.steps.choice_step hcommutes hstep
  exact ⟨z', hz, fun m w hw => ⟨hsteps.trans hw.steps, hw.final⟩⟩

section

variable {base : σ → Prop}

def Resettles (quiet choice : σ → σ → Prop) (base : σ → Prop) : Prop :=
  ∀ z z', base z → choice z z' → ∃ n w, Settles quiet n z' w ∧ base w

theorem settles_of_reaches (hcommutes : Commutes quiet choice)
    (hbase : Resettles quiet choice base) {a b : σ}
    (hreaches : Relation.ReflTransGen (Either quiet choice) a b)
    (ha : ∃ n z, Settles quiet n a z ∧ base z) : ∃ n z, Settles quiet n b z ∧ base z := by
  induction hreaches with
  | refl => exact ha
  | tail _ hstep ih =>
      obtain ⟨n, z, hsettles, hz⟩ := ih
      rcases hstep with hquiet | hchoice
      · obtain ⟨k, -, hk⟩ := hsettles.quiet_step hcommutes hquiet
        exact ⟨k, z, hk, hz⟩
      · obtain ⟨z', hchoice', hrest⟩ := hsettles.choice_step hcommutes hchoice
        obtain ⟨m, w, hw, hbasew⟩ := hbase z z' hz hchoice'
        exact ⟨n + m, w, hrest m w hw, hbasew⟩

/-- When choices use something up, every run ends. -/
theorem acc_of_settles (hcommutes : Commutes quiet choice) (weight : σ → ℕ)
    (hbase : ∀ z z', base z → choice z z' →
      ∃ n w, Settles quiet n z' w ∧ base w ∧ weight w < weight z)
    {n : ℕ} {a z : σ} (hsettles : Settles quiet n a z) (hz : base z) :
    Acc (fun c b => Either quiet choice b c) a := by
  induction hweight : weight z using Nat.strong_induction_on generalizing n a z with
  | _ k ih =>
  induction n using Nat.strong_induction_on generalizing a with
  | _ n ihn =>
  refine Acc.intro a fun b hb => ?_
  rcases hb with hquiet | hchoice
  · obtain ⟨m, rfl, hm⟩ := hsettles.quiet_step hcommutes hquiet
    exact ihn m (Nat.lt_succ_self m) hm
  · obtain ⟨z', hchoice', hrest⟩ := hsettles.choice_step hcommutes hchoice
    obtain ⟨m, w, hw, hbasew, hless⟩ := hbase z z' hz hchoice'
    exact ih (weight w) (hweight ▸ hless) (hrest m w hw) hbasew rfl

end

/-- Every run ends, and all runs that cannot go on end in `z`. -/
structure EndsIn (step : σ → σ → Prop) (a z : σ) : Prop where
  ends : Acc (fun c b => step b c) a
  last : ∀ b, Relation.ReflTransGen step a b → Final step b → b = z

/-- A symmetry of the steps takes runs to runs. -/
theorem EndsIn.symmetry {step : σ → σ → Prop} {f : σ → σ} (hinvolutive : ∀ a, f (f a) = a)
    (hstep : ∀ a b, step a b → step (f a) (f b)) {a z : σ} (h : EndsIn step a z) :
    EndsIn step (f a) (f z) := by
  have hback : ∀ {a b}, step (f a) b → step a (f b) := fun {a b} hab => by
    have hfab := hstep (f a) b hab
    rwa [hinvolutive] at hfab
  constructor
  · have hacc := h.ends
    clear h
    induction hacc with
    | intro a _ ih =>
        refine Acc.intro (f a) fun b hb => ?_
        have hb' := ih (f b) (hback hb)
        rwa [hinvolutive] at hb'
  · intro b hreaches hfinal
    have hreaches' : Relation.ReflTransGen step (f (f a)) (f b) := hreaches.lift f hstep
    rw [hinvolutive] at hreaches'
    have hlast := h.last (f b) hreaches' fun c hc => hfinal (f c) (by
      have hfc := hstep (f b) c hc
      rwa [hinvolutive] at hfc)
    rw [← hlast, hinvolutive]

end Settling
