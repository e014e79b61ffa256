import Mathlib.Algebra.BigOperators.Group.List.Basic
import Mathlib.Data.Nat.ModEq

/-!
# Sums that find a changed symbol

Behind a text stands the sum of the weights of its symbols modulo `m`, written with symbols of the
same kind. When different symbols have different weights modulo `m` and different sums are written
differently, no word is accepted in which one symbol has been changed, in the text or in the sum.
-/

namespace SumChecks

variable {α : Type*}

def Changed (sent got : List α) : Prop :=
  ∃ front c d back, c ≠ d ∧ sent = front ++ c :: back ∧ got = front ++ d :: back

def sum (weight : α → ℕ) (m : ℕ) (text : List α) : ℕ := (text.map weight).sum % m

def Accepted (weight : α → ℕ) (m : ℕ) (digits : ℕ → List α) (text check : List α) : Prop :=
  check = digits (sum weight m text)

section

variable {weight : α → ℕ} {m : ℕ} {digits : ℕ → List α} {sent got text text' check check' : List α}

theorem Changed.length_eq (h : Changed sent got) : got.length = sent.length := by
  obtain ⟨front, c, d, back, -, rfl, rfl⟩ := h
  simp only [List.length_append, List.length_cons]

theorem Changed.ne (h : Changed sent got) : sent ≠ got := by
  obtain ⟨front, c, d, back, hne, rfl, rfl⟩ := h
  intro heq
  exact hne (List.cons.inj (List.append_cancel_left heq)).1

/-- The changed symbol stands in the first part or in the second one. -/
theorem Changed.split (h : Changed (text ++ check) (text' ++ check'))
    (hlength : text'.length = text.length) :
    Changed text text' ∧ check = check' ∨ text = text' ∧ Changed check check' := by
  obtain ⟨front, c, d, back, hne, hsent, hgot⟩ := h
  rcases List.append_eq_append_iff.1 hsent with ⟨middle, hfront, hcheck⟩ | ⟨middle, htext, hrest⟩
  · subst hfront
    rw [List.append_assoc] at hgot
    obtain ⟨rfl, hcheck'⟩ := List.append_inj hgot hlength
    exact .inr ⟨rfl, middle, c, d, back, hne, hcheck, hcheck'⟩
  · cases middle with
    | nil =>
        rw [List.append_nil] at htext
        subst htext
        obtain ⟨rfl, hcheck'⟩ := List.append_inj hgot hlength
        exact .inr ⟨rfl, [], c, d, back, hne, hrest.symm, hcheck'⟩
    | cons e middle =>
        obtain ⟨rfl, rfl⟩ := List.cons.inj hrest
        subst htext
        have hgot' : text' ++ check' = (front ++ d :: middle) ++ check := by
          rw [hgot, List.append_assoc]
          rfl
        have hlength' : text'.length = (front ++ d :: middle).length := by
          rw [hlength, List.length_append, List.length_append, List.length_cons, List.length_cons]
        obtain ⟨rfl, rfl⟩ := List.append_inj hgot' hlength'
        exact .inl ⟨⟨front, c, d, middle, hne, rfl, rfl⟩, rfl⟩

/-- A changed symbol changes the sum. -/
theorem Changed.sum_ne (hweight : ∀ c d, weight c ≡ weight d [MOD m] → c = d)
    (h : Changed sent got) : sum weight m sent ≠ sum weight m got := by
  obtain ⟨front, c, d, back, hne, rfl, rfl⟩ := h
  intro heq
  simp only [sum, List.map_append, List.map_cons, List.sum_append, List.sum_cons] at heq
  have hmod : (front.map weight).sum + (weight c + (back.map weight).sum) ≡
      (front.map weight).sum + (weight d + (back.map weight).sum) [MOD m] := heq
  exact hne (hweight c d (Nat.ModEq.add_right_cancel' _ (Nat.ModEq.add_left_cancel' _ hmod)))

/-- One changed symbol is found, wherever it stands. -/
theorem not_accepted_of_changed (hm : 0 < m)
    (hweight : ∀ c d, weight c ≡ weight d [MOD m] → c = d)
    (hdigits : ∀ a b, a < m → b < m → digits a = digits b → a = b)
    (haccepted : Accepted weight m digits text check)
    (h : Changed (text ++ check) (text' ++ check')) (hlength : text'.length = text.length) :
    ¬ Accepted weight m digits text' check' := by
  intro haccepted'
  rcases h.split hlength with ⟨htext, hcheck⟩ | ⟨rfl, hcheck⟩
  · rw [haccepted, haccepted'] at hcheck
    exact htext.sum_ne hweight (hdigits _ _ (Nat.mod_lt _ hm) (Nat.mod_lt _ hm) hcheck)
  · exact hcheck.ne (haccepted.trans haccepted'.symm)

end

end SumChecks
