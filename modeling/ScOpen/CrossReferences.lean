import Mathlib.Logic.Function.Basic
import Mathlib.Data.Option.Basic

/-!
# Cross references

A table of which no entry is written twice. A pair is entered in both directions, one after the
other, and is found under the keys of its two values.
-/

namespace CrossReferences

variable {K V : Type*}

def Inverse (key : V → K) (text : K → V) (m : K → Option V) : Prop :=
  ∀ k x, m k = some x → m (key x) = some (text k)

def Entered (key : V → K) (m : K → Option V) (a b : V) : Prop :=
  m (key a) = some b ∧ m (key b) = some a

def Enterable (key : V → K) (text : K → V) (m : K → Option V) (a b : V) : Prop :=
  ((m (key a)).isSome ∧ (m (key b)).isSome) ∨
    (m (key a) = none ∧ m (key b) = none ∧ text (key a) = a ∧ text (key b) = b)

/-- A pair of which one direction is taken and the other is free is not found. -/
theorem not_entered {key : V → K} {text : K → V} {m : K → Option V} {a b x : V}
    (hm : Inverse key text m) (hx : m (key a) = some x) (hb : m (key b) = none) :
    some x ≠ some b := by
  intro hentered
  cases hentered
  rw [hm _ _ hx] at hb
  cases hb

variable [DecidableEq K]

def put (m : K → Option V) (k : K) (x : V) : K → Option V :=
  if (m k).isSome then m else Function.update m k (some x)

def enter (key : V → K) (m : K → Option V) (a b : V) : K → Option V :=
  put (put m (key a) b) (key b) a

section

variable {m : K → Option V} {k j : K} {x : V}

theorem put_taken (h : (m k).isSome) (x : V) : put m k x = m := if_pos h

theorem put_free (h : m k = none) (x : V) : put m k x = Function.update m k (some x) := by
  rw [put, h]
  rfl

theorem put_self (h : m k = none) (x : V) : put m k x k = some x := by
  rw [put_free h]
  exact Function.update_self k (some x) m

theorem put_other (h : j ≠ k) (x : V) : put m k x j = m j := by
  unfold put
  split
  · rfl
  · exact Function.update_of_ne h (some x) m

/-- What is found stays. -/
theorem put_keeps {y : V} (h : m j = some y) (k : K) (x : V) : put m k x j = some y := by
  by_cases hj : j = k
  · subst hj
    have htaken : (m j).isSome := by rw [h]; rfl
    rw [put_taken htaken, h]
  · rw [put_other hj, h]

end

section

variable {key : V → K} {text : K → V} {m : K → Option V} {a b x : V} {k : K}

theorem enter_taken (ha : (m (key a)).isSome) (hb : (m (key b)).isSome) :
    enter key m a b = m := by
  rw [enter, put_taken ha, put_taken hb]

theorem enter_keeps (h : m k = some x) (a b : V) : enter key m a b k = some x :=
  put_keeps (put_keeps h _ _) _ _

theorem enter_first (ha : m (key a) = none) (b : V) : enter key m a b (key a) = some b :=
  put_keeps (put_self ha b) _ _

theorem enter_other (ha : k ≠ key a) (hb : k ≠ key b) : enter key m a b k = m k := by
  rw [enter, put_other hb, put_other ha]

/-- The second direction is written unless it is the first one. -/
theorem enter_second (hb : m (key b) = none) (hne : key b ≠ key a) :
    enter key m a b (key b) = some a := by
  have hfree : put m (key a) b (key b) = none := by rw [put_other hne, hb]
  exact put_self hfree a

theorem entered_of_free (ha : m (key a) = none) (hb : m (key b) = none)
    (htexta : text (key a) = a) (htextb : text (key b) = b) :
    Entered key (enter key m a b) a b := by
  refine ⟨enter_first ha b, ?_⟩
  by_cases hne : key b = key a
  · have hab : a = b := by rw [← htexta, ← hne, htextb]
    subst hab
    exact enter_first ha a
  · exact enter_second hb hne

theorem inverse_of_free (hm : Inverse key text m) (ha : m (key a) = none)
    (hb : m (key b) = none) (htexta : text (key a) = a) (htextb : text (key b) = b) :
    Inverse key text (enter key m a b) := by
  obtain ⟨hfirst, hsecond⟩ := entered_of_free ha hb htexta htextb
  intro k x hx
  by_cases hka : k = key a
  · subst hka
    rw [hfirst] at hx
    cases hx
    rw [hsecond, htexta]
  by_cases hkb : k = key b
  · subst hkb
    rw [hsecond] at hx
    cases hx
    rw [hfirst, htextb]
  rw [enter_other hka hkb] at hx
  exact enter_keeps (hm k x hx) a b

/-- The two directions stay inverse, with the pair entered in both or in none, just when it is
enterable. -/
theorem enter_right_iff (hm : Inverse key text m) :
    (Inverse key text (enter key m a b) ∧
      (enter key m a b = m ∨ Entered key (enter key m a b) a b)) ↔ Enterable key text m a b := by
  constructor
  · rintro ⟨hinverse, hright⟩
    cases ha : m (key a) with
    | some x =>
        cases hb : m (key b) with
        | some y => exact .inl ⟨by rw [ha]; rfl, by rw [hb]; rfl⟩
        | none =>
            have hx : enter key m a b (key a) = some x := enter_keeps ha a b
            have hentered : enter key m a b (key a) = some b := by
              rcases hright with hsame | hentered
              · have hne : key b ≠ key a := by
                  intro heq
                  rw [heq, ha] at hb
                  cases hb
                have hsecond := enter_second hb hne
                rw [hsame, hb] at hsecond
                cases hsecond
              · exact hentered.1
            exact absurd (hx.symm.trans hentered) (not_entered hm ha hb)
    | none =>
        have hfirst := enter_first ha b
        have hentered : Entered key (enter key m a b) a b := by
          rcases hright with hsame | hentered
          · rw [hsame, ha] at hfirst
            cases hfirst
          · exact hentered
        cases hb : m (key b) with
        | some y =>
            have hy : enter key m a b (key b) = some y := enter_keeps hb a b
            exact absurd (hy.symm.trans hentered.2) (not_entered hm hb ha)
        | none =>
            have hbacka := hinverse _ _ hentered.1
            have hbackb := hinverse _ _ hentered.2
            rw [hentered.2] at hbacka
            rw [hentered.1] at hbackb
            exact .inr ⟨ha, hb, (Option.some.inj hbacka).symm, (Option.some.inj hbackb).symm⟩
  · rintro (⟨ha, hb⟩ | ⟨ha, hb, htexta, htextb⟩)
    · rw [enter_taken ha hb]
      exact ⟨hm, .inl rfl⟩
    · exact ⟨inverse_of_free hm ha hb htexta htextb,
        .inr (entered_of_free ha hb htexta htextb)⟩

end

end CrossReferences
