import Mathlib.Logic.Relation
import Mathlib.Order.WellFounded

/-!
# Pieces of programs that are left early

A piece of a program is known by the states it leads to and by how it is left there: at its end, to
go on with the loop around it, to break out of that loop, or to return from the subroutine around
it. Weakest preconditions are about runs that come to an end.
-/

namespace Outcomes

inductive Exit where
  | falls | continues | breaks | returns
  deriving DecidableEq

/-- From the first state the piece can be left in this way with the second state. -/
abbrev Behaviour (S : Type*) := S → Exit → S → Prop

variable {S α : Type*}

def leaves (x : Exit) : Behaviour S := fun s e t => e = x ∧ t = s

def does (f : S → Option S) : Behaviour S := fun s e t => e = .falls ∧ f s = some t

def andThen (a b : Behaviour S) : Behaviour S := fun s e t =>
  (∃ u, a s .falls u ∧ b u e t) ∨ (e ≠ .falls ∧ a s e t)

def choosing (pick : S → Option (α × S)) (arm : α → Behaviour S) : Behaviour S := fun s e t =>
  ∃ a u, pick s = some (a, u) ∧ arm a u e t

def only (allowed : Exit → Prop) (a : Behaviour S) : Behaviour S := fun s e t => allowed e ∧ a s e t

def called (f : S → Option S) (body : Behaviour S) : Behaviour S := fun s e t =>
  e = .falls ∧ ∃ u, f s = some u ∧ body u .returns t

/-- The body again and again, as long as the test after it is true. -/
inductive Rounds (body : Behaviour S) (again : S → Option (Bool × S)) : Behaviour S
  | stop {s u t : S} {e : Exit} (hbody : body s e u) (hgo : e = .falls ∨ e = .continues)
      (htest : again u = some (false, t)) : Rounds body again s .falls t
  | next {s u v t : S} {e e' : Exit} (hbody : body s e u) (hgo : e = .falls ∨ e = .continues)
      (htest : again u = some (true, v)) (hrest : Rounds body again v e' t) :
      Rounds body again s e' t
  | broken {s t : S} (hbody : body s .breaks t) : Rounds body again s .falls t
  | returned {s t : S} (hbody : body s .returns t) : Rounds body again s .returns t

/-! ## Weakest preconditions -/

def Functional (a : Behaviour S) : Prop :=
  ∀ ⦃s e t e' t'⦄, a s e t → a s e' t' → e = e' ∧ t = t'

section

variable {a b : Behaviour S} {Q Q' : Exit → S → Prop} {s : S}

theorem andThen_mono {a' b' : Behaviour S} (ha : a ≤ a') (hb : b ≤ b') :
    andThen a b ≤ andThen a' b' := by
  rintro s e t (⟨u, hu, ht⟩ | ⟨he, ht⟩)
  · exact .inl ⟨u, ha s .falls u hu, hb u e t ht⟩
  · exact .inr ⟨he, ha s e t ht⟩

theorem choosing_mono {pick : S → Option (α × S)} {arm arm' : α → Behaviour S}
    (h : ∀ a, arm a ≤ arm' a) : choosing pick arm ≤ choosing pick arm' := by
  rintro s e t ⟨a, u, hpick, ht⟩
  exact ⟨a, u, hpick, h a u e t ht⟩

theorem only_mono {a' : Behaviour S} (ha : a ≤ a') (allowed : Exit → Prop) :
    only allowed a ≤ only allowed a' := by
  rintro s e t ⟨hallowed, ht⟩
  exact ⟨hallowed, ha s e t ht⟩

theorem called_mono {a' : Behaviour S} (ha : a ≤ a') (f : S → Option S) :
    called f a ≤ called f a' := by
  rintro s e t ⟨he, u, hu, ht⟩
  exact ⟨he, u, hu, ha u .returns t ht⟩

theorem rounds_mono {a' : Behaviour S} (ha : a ≤ a') (again : S → Option (Bool × S)) :
    Rounds a again ≤ Rounds a' again := by
  intro s e t h
  induction h with
  | stop hbody hgo htest => exact .stop (ha _ _ _ hbody) hgo htest
  | next hbody hgo htest _ ih => exact .next (ha _ _ _ hbody) hgo htest ih
  | broken hbody => exact .broken (ha _ _ _ hbody)
  | returned hbody => exact .returned (ha _ _ _ hbody)

/-! ## One way out -/

theorem functional_leaves (x : Exit) : Functional (leaves (S := S) x) := by
  rintro s _ _ _ _ ⟨rfl, rfl⟩ ⟨rfl, rfl⟩
  exact ⟨rfl, rfl⟩

theorem functional_does (f : S → Option S) : Functional (does f) := by
  rintro s _ t _ t' ⟨rfl, hf⟩ ⟨rfl, hf'⟩
  exact ⟨rfl, Option.some.inj (hf.symm.trans hf')⟩

theorem Functional.andThen (ha : Functional a) (hb : Functional b) : Functional (andThen a b) := by
  rintro s e t e' t' (⟨u, hu, ht⟩ | ⟨he, ht⟩) (⟨u', hu', ht'⟩ | ⟨he', ht'⟩)
  · obtain ⟨-, rfl⟩ := ha hu hu'
    exact hb ht ht'
  · exact absurd (ha hu ht').1.symm he'
  · exact absurd (ha ht hu').1 he
  · exact ha ht ht'

theorem Functional.choosing {pick : S → Option (α × S)} {arm : α → Behaviour S}
    (harm : ∀ a, Functional (arm a)) : Functional (choosing pick arm) := by
  rintro s e t e' t' ⟨a, u, hpick, ht⟩ ⟨a', u', hpick', ht'⟩
  obtain ⟨rfl, rfl⟩ := Prod.mk.inj (Option.some.inj (hpick.symm.trans hpick'))
  exact harm a ht ht'

theorem Functional.only (ha : Functional a) (allowed : Exit → Prop) :
    Functional (only allowed a) := by
  rintro s e t e' t' ⟨-, ht⟩ ⟨-, ht'⟩
  exact ha ht ht'

theorem Functional.called (ha : Functional a) (f : S → Option S) : Functional (called f a) := by
  rintro s _ t _ t' ⟨rfl, u, hu, ht⟩ ⟨rfl, u', hu', ht'⟩
  obtain rfl := Option.some.inj (hu.symm.trans hu')
  exact ⟨rfl, (ha ht ht').2⟩

theorem Functional.rounds (ha : Functional a) (again : S → Option (Bool × S)) :
    Functional (Rounds a again) := by
  intro s e t e' t' h h'
  induction h with
  | stop hbody hgo htest =>
      cases h' with
      | stop hbody' _ htest' =>
          obtain ⟨-, rfl⟩ := ha hbody hbody'
          rw [htest, Option.some.injEq, Prod.mk.injEq] at htest'
          exact ⟨rfl, htest'.2⟩
      | next hbody' _ htest' _ =>
          obtain ⟨-, rfl⟩ := ha hbody hbody'
          rw [htest] at htest'
          cases htest'
      | broken hbody' =>
          obtain ⟨rfl, -⟩ := ha hbody hbody'
          simp at hgo
      | returned hbody' =>
          obtain ⟨rfl, -⟩ := ha hbody hbody'
          simp at hgo
  | next hbody hgo htest hrest ih =>
      cases h' with
      | stop hbody' _ htest' =>
          obtain ⟨-, rfl⟩ := ha hbody hbody'
          rw [htest] at htest'
          cases htest'
      | next hbody' _ htest' hrest' =>
          obtain ⟨-, rfl⟩ := ha hbody hbody'
          rw [htest, Option.some.injEq, Prod.mk.injEq] at htest'
          obtain ⟨-, rfl⟩ := htest'
          exact ih hrest'
      | broken hbody' =>
          obtain ⟨rfl, -⟩ := ha hbody hbody'
          simp at hgo
      | returned hbody' =>
          obtain ⟨rfl, -⟩ := ha hbody hbody'
          simp at hgo
  | broken hbody =>
      cases h' with
      | stop hbody' hgo' _ =>
          obtain ⟨rfl, -⟩ := ha hbody hbody'
          simp at hgo'
      | next hbody' hgo' _ _ =>
          obtain ⟨rfl, -⟩ := ha hbody hbody'
          simp at hgo'
      | broken hbody' => exact ⟨rfl, (ha hbody hbody').2⟩
      | returned hbody' => cases (ha hbody hbody').1
  | returned hbody =>
      cases h' with
      | stop hbody' hgo' _ =>
          obtain ⟨rfl, -⟩ := ha hbody hbody'
          simp at hgo'
      | next hbody' hgo' _ _ =>
          obtain ⟨rfl, -⟩ := ha hbody hbody'
          simp at hgo'
      | broken hbody' => cases (ha hbody hbody').1
      | returned hbody' => exact ⟨rfl, (ha hbody hbody').2⟩

end

end Outcomes
