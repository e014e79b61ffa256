import Mathlib.Data.List.Infix

/-!
# The first place of a text in another one

The search goes over the text from its start and returns what stands behind the first place that it
finds. When a text is put together from parts, no place goes over from one part to the next one
where that begins with something that the searched text does not have.
-/

namespace Substrings

variable {α : Type*}

def Bars (pat rest : List α) : Prop := ∀ c, rest.head? = some c → c ∉ pat

theorem bars_cons {pat rest : List α} {c : α} (h : c ∉ pat) : Bars pat (c :: rest) := by
  intro d hd
  cases hd
  exact h

theorem start_of_bars {pat text rest : List α} (hrest : Bars pat rest)
    (h : pat <+: text ++ rest) : pat <+: text := by
  obtain ⟨more, hmore⟩ := h
  rcases List.append_eq_append_iff.1 hmore with ⟨d, hd, -⟩ | ⟨d, hd, hrest'⟩
  · exact ⟨d, hd.symm⟩
  · cases d with
    | nil => exact ⟨[], by rw [List.append_nil, hd, List.append_nil]⟩
    | cons c d =>
        subst hrest'
        exact absurd (hd ▸ List.mem_append_right _ List.mem_cons_self) (hrest c rfl)

variable [DecidableEq α]

def behind (pat : List α) : List α → Option (List α)
  | [] => if pat = [] then some [] else none
  | c :: text =>
      if pat <+: c :: text then some ((c :: text).drop pat.length) else behind pat text

section

variable {pat text rest found : List α} {c : α}

theorem behind_cons_neg (h : ¬ pat <+: c :: text) : behind pat (c :: text) = behind pat text :=
  if_neg h

theorem behind_at_start (h : pat <+: text) : behind pat text = some (text.drop pat.length) := by
  cases text with
  | nil =>
      obtain rfl := List.prefix_nil.1 h
      rfl
  | cons c text => exact if_pos h

/-- What is not the first element of the searched text is passed over. -/
theorem behind_cons_head (h : pat.head? ≠ some c) (hne : pat ≠ []) :
    behind pat (c :: text) = behind pat text := by
  refine behind_cons_neg fun hstart => ?_
  cases pat with
  | nil => exact hne rfl
  | cons d pat =>
      obtain ⟨more, hmore⟩ := hstart
      cases hmore
      exact h rfl

theorem behind_isSome : (behind pat text).isSome ↔ pat <:+: text := by
  induction text with
  | nil =>
      rw [List.infix_nil, behind]
      split
      · exact iff_of_true rfl ‹_›
      · exact iff_of_false Bool.false_ne_true ‹_›
  | cons c text ih =>
      rw [List.infix_cons_iff, ← ih, behind]
      split
      · exact iff_of_true rfl (.inl ‹_›)
      · exact (or_iff_right ‹_›).symm

/-- The first place in a text and what follows it. -/
theorem behind_append (hne : pat ≠ []) (hrest : Bars pat rest) :
    behind pat (text ++ rest) =
      ((behind pat text).map fun found => found ++ rest).or (behind pat rest) := by
  induction text with
  | nil =>
      have hnil : behind pat ([] : List α) = none := if_neg hne
      rw [hnil]
      rfl
  | cons c text ih =>
      by_cases hstart : pat <+: c :: text
      · have hlong : pat <+: c :: text ++ rest := hstart.trans (List.prefix_append _ _)
        rw [behind_at_start hlong, behind_at_start hstart,
          List.drop_append_of_le_length hstart.length_le]
        rfl
      · have hlong : ¬ pat <+: c :: (text ++ rest) := fun h => hstart (start_of_bars hrest h)
        rw [List.cons_append, behind_cons_neg hlong, behind_cons_neg hstart]
        exact ih

/-- The search finds the place in front of which there is no other one. -/
theorem behind_eq_some_iff :
    behind pat text = some found ↔
      ∃ front, text = front ++ (pat ++ found) ∧
        ∀ front' found', text = front' ++ (pat ++ found') → front.length ≤ front'.length := by
  induction text with
  | nil =>
      rw [behind]
      constructor
      · intro h
        split at h
        · rename_i hpat
          cases h
          exact ⟨[], by rw [hpat]; rfl, fun _ _ _ => Nat.zero_le _⟩
        · cases h
      · rintro ⟨front, htext, -⟩
        obtain ⟨-, hrest⟩ := List.append_eq_nil_iff.1 htext.symm
        obtain ⟨rfl, rfl⟩ := List.append_eq_nil_iff.1 hrest
        rfl
  | cons c text ih =>
      by_cases hstart : pat <+: c :: text
      · obtain ⟨more, hmore⟩ := hstart
        have hfound : behind pat (c :: text) = some more := by
          rw [behind_at_start ⟨more, hmore⟩, ← hmore, List.drop_left]
        rw [hfound]
        constructor
        · intro h
          cases h
          exact ⟨[], hmore.symm, fun _ _ _ => Nat.zero_le _⟩
        · rintro ⟨front, htext, hfirst⟩
          have hfront : front = [] :=
            List.length_eq_zero_iff.1 (Nat.le_zero.1 (hfirst [] more hmore.symm))
          subst hfront
          rw [← hmore] at htext
          rw [List.append_cancel_left htext]
      · rw [behind_cons_neg hstart, ih]
        have hfront : ∀ front found', c :: text = front ++ (pat ++ found') →
            ∃ front', front = c :: front' ∧ text = front' ++ (pat ++ found') := by
          intro front found' htext
          cases front with
          | nil => exact absurd ⟨found', htext.symm⟩ hstart
          | cons d front' =>
              cases htext
              exact ⟨front', rfl, rfl⟩
        constructor
        · rintro ⟨front, rfl, hfirst⟩
          refine ⟨c :: front, rfl, fun front' found' htext => ?_⟩
          obtain ⟨front'', rfl, hrest⟩ := hfront front' found' htext
          exact Nat.succ_le_succ (hfirst front'' found' hrest)
        · rintro ⟨front, htext, hfirst⟩
          obtain ⟨front', rfl, hrest⟩ := hfront front found htext
          refine ⟨front', hrest, fun front'' found' hrest' => ?_⟩
          have hle := hfirst (c :: front'') found' (by rw [hrest']; rfl)
          exact Nat.le_of_succ_le_succ hle

end

end Substrings
