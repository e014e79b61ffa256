import Mathlib.Data.List.Basic
import Mathlib.Logic.Function.Iterate

/-!
# Runs of a step function

The states that are reached when every step meets a condition, and the rule that an invariant
which such a step preserves holds of all of them.
-/

namespace Runs

variable {σ α : Type*} {step : σ → α → Option σ} {ok : σ → α → Prop} {initial : σ → Prop}

/-- The states that are reached from an initial state by steps that all meet `ok`. -/
inductive Reaches (step : σ → α → Option σ) (ok : σ → α → Prop) (initial : σ → Prop) : σ → Prop
  | start {s : σ} (h : initial s) : Reaches step ok initial s
  | next {s s' : σ} {a : α} (hs : Reaches step ok initial s) (hok : ok s a)
      (hstep : step s a = some s') : Reaches step ok initial s'

theorem Reaches.invariant {inv : σ → Prop} (hinitial : ∀ s, initial s → inv s)
    (hnext : ∀ s a s', inv s → ok s a → step s a = some s' → inv s') {s : σ}
    (h : Reaches step ok initial s) : inv s := by
  induction h with
  | start h => exact hinitial _ h
  | next _ hok hstep ih => exact hnext _ _ _ ih hok hstep

/-- A list of steps leads from one reached state to another, when there is no condition. -/
theorem Reaches.run {s s' : σ} {as : List α} (hs : Reaches step (fun _ _ => True) initial s)
    (h : as.foldlM step s = some s') : Reaches step (fun _ _ => True) initial s' := by
  induction as generalizing s with
  | nil =>
      cases h
      exact hs
  | cons a as ih =>
      rw [List.foldlM_cons] at h
      obtain ⟨s₁, hstep, hrest⟩ := Option.bind_eq_some_iff.1 h
      exact ih (hs.next trivial hstep) hrest

def Admits (step : σ → α → Option σ) (ok : σ → α → Prop) : σ → List α → Prop
  | _, [] => True
  | s, a :: as => ok s a ∧ ∀ s' ∈ step s a, Admits step ok s' as

theorem Admits.cons {s s' : σ} {a : α} {as : List α} (hok : ok s a) (hstep : step s a = some s')
    (has : Admits step ok s' as) : Admits step ok s (a :: as) := by
  refine ⟨hok, fun s'' hs'' => ?_⟩
  rw [hstep] at hs''
  exact Option.some.inj hs'' ▸ has

theorem Reaches.admits {s s' : σ} {as : List α} (hs : Reaches step ok initial s)
    (hok : Admits step ok s as) (h : as.foldlM step s = some s') :
    Reaches step ok initial s' := by
  induction as generalizing s with
  | nil =>
      cases h
      exact hs
  | cons a as ih =>
      rw [List.foldlM_cons] at h
      obtain ⟨s₁, hstep, hrest⟩ := Option.bind_eq_some_iff.1 h
      exact ih (hs.next hok.1 hstep) (hok.2 s₁ hstep) hrest

theorem Reaches.iterate {f : σ → σ} {a : α} {s : σ} {n : ℕ} (hs : Reaches step ok initial s)
    (hnext : ∀ k < n, ok (f^[k] s) a ∧ step (f^[k] s) a = some (f (f^[k] s))) :
    Reaches step ok initial (f^[n] s) := by
  induction n with
  | zero => exact hs
  | succ n ih =>
      obtain ⟨hok, hstep⟩ := hnext n n.lt_succ_self
      rw [Function.iterate_succ_apply']
      exact (ih fun k hk => hnext k (Nat.lt_succ_of_lt hk)).next hok hstep

/-- What a machine gives out, one thing at each step. -/
def outputs {σ α γ : Type*} (next : σ → α → σ × γ) : σ → List α → List γ
  | _, [] => []
  | s, a :: as => (next s a).2 :: outputs next (next s a).1 as

/-- Two machines give out the same when each step of related states does and leads to related
states. -/
theorem outputs_eq {σ τ α γ : Type*} {next : σ → α → σ × γ} {next' : τ → α → τ × γ}
    {rel : σ → τ → Prop}
    (hnext : ∀ s t a, rel s t → (next s a).2 = (next' t a).2 ∧ rel (next s a).1 (next' t a).1)
    {s : σ} {t : τ} (h : rel s t) (as : List α) : outputs next s as = outputs next' t as := by
  induction as generalizing s t with
  | nil => rfl
  | cons a as ih =>
      obtain ⟨hout, hrel⟩ := hnext s t a h
      rw [outputs, outputs, hout, ih hrel]

end Runs
