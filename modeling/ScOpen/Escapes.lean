import Mathlib.Data.List.Infix

/-!
# Searching in escaped text

Some elements of a list are plain and stand for themselves, the others are written as several plain
ones. A list is found in what was written exactly when it is found in the list that was written, if
it is plain and has nothing in common with the text of an element that is not.
-/

namespace Escapes

variable {α : Type*} {text : α → List α} {Plain : α → Prop}

structure Code (text : α → List α) (Plain : α → Prop) : Prop where
  plain : ∀ c, Plain c → text c = [c]
  ne_nil : ∀ c, text c ≠ []
  chars : ∀ c, ∀ a ∈ text c, Plain a

def Overlap (x y : List α) : Prop :=
  x <:+: y ∨ y <:+: x ∨ (∃ t, t ≠ [] ∧ t <:+ x ∧ t <+: y) ∨ ∃ t, t ≠ [] ∧ t <:+ y ∧ t <+: x

theorem Overlap.exists_mem {x y : List α} (h : Overlap x y) (hx : x ≠ []) (hy : y ≠ []) :
    ∃ a ∈ x, a ∈ y := by
  rcases h with h | h | ⟨t, ht, hx', hy'⟩ | ⟨t, ht, hy', hx'⟩
  · obtain ⟨a, ha⟩ := List.exists_mem_of_ne_nil x hx
    exact ⟨a, ha, h.subset ha⟩
  · obtain ⟨a, ha⟩ := List.exists_mem_of_ne_nil y hy
    exact ⟨a, h.subset ha, ha⟩
  · obtain ⟨a, ha⟩ := List.exists_mem_of_ne_nil t ht
    exact ⟨a, hx'.subset ha, hy'.subset ha⟩
  · obtain ⟨a, ha⟩ := List.exists_mem_of_ne_nil t ht
    exact ⟨a, hx'.subset ha, hy'.subset ha⟩

theorem Code.flatMap_plain (hcode : Code text Plain) {e : List α} (he : ∀ c ∈ e, Plain c) :
    e.flatMap text = e := by
  induction e with
  | nil => rfl
  | cons c e ih =>
      rw [List.flatMap_cons, hcode.plain c (he c List.mem_cons_self),
        ih fun d hd => he d (List.mem_cons_of_mem c hd)]
      rfl

/-- What is found at the start of the written text is at the start of the list. -/
theorem prefix_of_prefix_flatMap (hcode : Code text Plain) {whole e s : List α}
    (hno : ∀ c, ¬Plain c → ¬Overlap (text c) whole) (hwhole : e <:+ whole)
    (h : e <+: s.flatMap text) : e <+: s := by
  induction s generalizing e with
  | nil => exact h
  | cons b s ih =>
      cases e with
      | nil => exact List.nil_prefix
      | cons a e =>
          rw [List.flatMap_cons] at h
          by_cases hb : Plain b
          · rw [hcode.plain b hb, List.singleton_append, List.cons_prefix_cons] at h
            rw [List.cons_prefix_cons]
            exact ⟨h.1, ih ((List.suffix_cons a e).trans hwhole) h.2⟩
          · rcases List.prefix_or_prefix_of_prefix h (List.prefix_append (text b) _) with hle | hle
            · exact absurd (.inr (.inr (.inr ⟨_, List.cons_ne_nil a e, hwhole, hle⟩))) (hno b hb)
            · exact absurd (.inl (hle.isInfix.trans hwhole.isInfix)) (hno b hb)

theorem infix_of_infix_flatMap (hcode : Code text Plain) {e s : List α}
    (hno : ∀ c, ¬Plain c → ¬Overlap (text c) e) (h : e <:+: s.flatMap text) : e <:+: s := by
  induction s with
  | nil => exact h
  | cons b s ih =>
      obtain ⟨left, right, heq⟩ := h
      rw [List.flatMap_cons, List.append_assoc] at heq
      rcases List.append_eq_append_iff.1 heq with ⟨rest, hb, hrest⟩ | ⟨rest, hleft, hrest⟩
      · cases left with
        | nil =>
            have hprefix : e <+: (b :: s).flatMap text := ⟨right, heq⟩
            exact (prefix_of_prefix_flatMap hcode hno (List.suffix_refl e) hprefix).isInfix
        | cons a left =>
            cases rest with
            | nil => exact List.infix_cons (ih ⟨[], right, hrest⟩)
            | cons d rest =>
                have hplain : ¬Plain b := by
                  intro hplain
                  have hlength := congrArg List.length hb
                  rw [hcode.plain b hplain] at hlength
                  simp only [List.length_cons, List.length_append, List.length_nil] at hlength
                  omega
                have hsuffix : d :: rest <:+ text b := ⟨a :: left, hb.symm⟩
                have hprefix : e <+: d :: rest ++ s.flatMap text := ⟨right, hrest⟩
                rcases List.prefix_or_prefix_of_prefix hprefix (List.prefix_append _ _) with
                  hle | hle
                · exact absurd (.inr (.inl (hle.isInfix.trans hsuffix.isInfix))) (hno b hplain)
                · exact absurd (.inr (.inr (.inl ⟨_, List.cons_ne_nil d rest, hsuffix, hle⟩)))
                    (hno b hplain)
      · exact List.infix_cons (ih ⟨rest, right, by rw [hrest, List.append_assoc]⟩)

/-- Where a text covers a plain list in part, the list is found where it is not. -/
theorem exists_of_overlap (hcode : Code text Plain) {e : List α} (hne : e ≠ [])
    (he : ∀ c ∈ e, Plain c) {c : α} (hc : ¬Plain c) (h : Overlap (text c) e) :
    ∃ s, e <:+: s.flatMap text ∧ ¬e <:+: s := by
  have hmem : ∀ s, s.length ≤ e.length → c ∈ s → ¬e <:+: s := by
    intro s hlength hs hinside
    have heq : e = s := hinside.eq_of_length (hinside.length_le.antisymm hlength)
    exact hc (he c (heq ▸ hs))
  have hpos := List.length_pos_of_ne_nil (hcode.ne_nil c)
  rcases h with ⟨left, right, rfl⟩ | hinside | ⟨t, ht, ⟨u, hu⟩, ⟨right, rfl⟩⟩ |
    ⟨t, ht, ⟨left, rfl⟩, ⟨u, hu⟩⟩
  · have hleft := hcode.flatMap_plain (e := left) fun a ha => he a (by simp [ha])
    have hright := hcode.flatMap_plain (e := right) fun a ha => he a (by simp [ha])
    refine ⟨left ++ c :: right, ?_, hmem _ ?_ (by simp)⟩
    · rw [List.flatMap_append, List.flatMap_cons, hleft, hright, ← List.append_assoc]
    · simp only [List.length_append, List.length_cons]
      omega
  · refine ⟨[c], ?_, hmem _ ?_ (List.mem_singleton_self c)⟩
    · rw [List.flatMap_singleton]
      exact hinside
    · exact List.length_pos_of_ne_nil hne
  · have hright := hcode.flatMap_plain (e := right) fun a ha => he a (by simp [ha])
    have hpos' := List.length_pos_of_ne_nil ht
    refine ⟨c :: right, ?_, hmem _ ?_ List.mem_cons_self⟩
    · rw [List.flatMap_cons, hright, ← hu, List.append_assoc]
      exact (List.suffix_append u _).isInfix
    · simp only [List.length_append, List.length_cons]
      omega
  · have hleft := hcode.flatMap_plain (e := left) fun a ha => he a (by simp [ha])
    have hpos' := List.length_pos_of_ne_nil ht
    refine ⟨left ++ [c], ?_, hmem _ ?_ (by simp)⟩
    · rw [List.flatMap_append, List.flatMap_singleton, hleft, ← hu, ← List.append_assoc]
      exact (List.prefix_append _ u).isInfix
    · simp only [List.length_append, List.length_singleton]
      omega

/-- What is found in the written text is in the list, for all lists, exactly when what is searched
for is plain and covers no text of an element that is not, and is covered by none. -/
theorem found_iff (hcode : Code text Plain) {e : List α} (hne : e ≠ []) :
    (∀ s, e.flatMap text <:+: s.flatMap text → e <:+: s) ↔
      (∀ c ∈ e, Plain c) ∧ ∀ c, ¬Plain c → ¬Overlap (text c) e := by
  constructor
  · intro h
    have hplain : ∀ c ∈ e, Plain c := by
      have htexts : ∀ a ∈ e.flatMap text, Plain a := by
        intro a ha
        obtain ⟨c, -, hac⟩ := List.mem_flatMap.1 ha
        exact hcode.chars c a hac
      have hinside := h (e.flatMap text) (by rw [hcode.flatMap_plain htexts])
      exact fun c hc => htexts c (hinside.subset hc)
    refine ⟨hplain, fun c hc hoverlap => ?_⟩
    obtain ⟨s, hfound, hnot⟩ := exists_of_overlap hcode hne hplain hc hoverlap
    refine hnot (h s ?_)
    rw [hcode.flatMap_plain hplain]
    exact hfound
  · rintro ⟨hplain, hno⟩ s hfound
    rw [hcode.flatMap_plain hplain] at hfound
    exact infix_of_infix_flatMap hcode hno hfound

end Escapes
