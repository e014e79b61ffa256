import ScOpen.VariableEffects

/-!
# Deleting variables

A delete blanks the entries that it takes and sorts the array again; the blank entries stay in it.
-/

namespace ScOpen

/-- What a delete leaves of an entry. -/
def erase (program name : Bytes) (v : Variable) : Variable :=
  if deletes program name v.name then v.blank else v

theorem erase_name (program name : Bytes) (v : Variable) :
    (erase program name v).name = if deletes program name v.name then [] else v.name := by
  unfold erase
  split_ifs <;> rfl

theorem erase_of_name {program name : Bytes} {v : Variable}
    (h : (erase program name v).name ≠ []) :
    deletes program name v.name = false ∧ erase program name v = v := by
  rw [erase_name] at h
  by_cases hd : deletes program name v.name
  · rw [if_pos hd] at h
    exact absurd rfl h
  · exact ⟨Bool.eq_false_iff.2 hd, if_neg hd⟩

theorem deletes_exact {program name : Bytes} (h : name.getLast? ≠ some (chr '*')) (full : Bytes) :
    deletes program name full = decide (program ++ name = full) := if_neg h

section

variable {lib : StoreLibrary} {st : Store}

theorem deleteMatching_eq {program name : Bytes} {st' : Store}
    (h : deleteMatching program name st = some st') : st' = st.map (erase program name) := by
  induction st generalizing st' with
  | nil =>
      cases h
      rfl
  | cons v st ih =>
      rw [deleteMatching] at h
      by_cases hd : deletes program name v.name
      · rw [if_pos hd] at h
        by_cases hv : v.name = []
        · rw [if_pos hv] at h
          cases h
        · rw [if_neg hv] at h
          obtain ⟨rest, hrest, rfl⟩ := Option.map_eq_some_iff.1 h
          rw [ih hrest, List.map_cons, erase, if_pos hd]
      · rw [if_neg hd] at h
        obtain ⟨rest, hrest, rfl⟩ := Option.map_eq_some_iff.1 h
        rw [ih hrest, List.map_cons, erase, if_neg hd]

theorem deleteMatching_some {program name : Bytes}
    (h : ∀ v ∈ st, deletes program name v.name → v.name ≠ []) :
    deleteMatching program name st = some (st.map (erase program name)) := by
  induction st with
  | nil => rfl
  | cons v st ih =>
      have hrest := ih fun u hu => h u (List.mem_cons_of_mem _ hu)
      rw [deleteMatching, hrest, List.map_cons]
      by_cases hd : deletes program name v.name
      · rw [if_pos hd, if_neg (h v List.mem_cons_self hd), erase, if_pos hd]
        rfl
      · rw [if_neg hd, erase, if_neg hd]
        rfl

theorem mem_of_deleteMatching {program name : Bytes} {st' : Store}
    (h : deleteMatching program name st = some st') :
    ∀ v ∈ st, deletes program name v.name → v.name ≠ [] := by
  induction st generalizing st' with
  | nil => exact fun v hv => absurd hv List.not_mem_nil
  | cons u st ih =>
      rw [deleteMatching] at h
      intro v hv hd
      by_cases hu : deletes program name u.name
      · rw [if_pos hu] at h
        by_cases hblank : u.name = []
        · rw [if_pos hblank] at h
          cases h
        rw [if_neg hblank] at h
        obtain ⟨rest, hrest, -⟩ := Option.map_eq_some_iff.1 h
        rcases List.mem_cons.1 hv with rfl | hv
        · exact hblank
        · exact ih hrest v hv hd
      · rw [if_neg hu] at h
        obtain ⟨rest, hrest, -⟩ := Option.map_eq_some_iff.1 h
        rcases List.mem_cons.1 hv with rfl | hv
        · exact absurd hd hu
        · exact ih hrest v hv hd

theorem deletes_star {program name : Bytes} (h : name.getLast? = some (chr '*')) (full : Bytes) :
    deletes program name full = true ↔ program ++ name.dropLast <+: full := by
  have hne : name ≠ [] := by
    rintro rfl
    cases h
  rw [deletes, if_pos h, List.isPrefixOf_iff_prefix, List.dropLast_append_of_ne_nil hne]

abbrev WildCard (name : Bytes) : Prop := name.getLast? = some (chr '*')

theorem variableDelete_exact {program name : Bytes} (hne : name ≠ [])
    (hexact : ¬ WildCard name) : ∃ st', variableDelete lib st program name = some st' := by
  unfold variableDelete
  cases hlast : name.getLast? with
  | none => exact absurd (List.getLast?_eq_none_iff.1 hlast) hne
  | some last =>
      have hstar : last ≠ chr '*' := by
        rintro rfl
        exact hexact hlast
      change ∃ st', (if last = chr '*' then _ else _) = some st'
      rw [if_neg hstar]
      cases hs : lib.bsearch st (program ++ name) with
      | none => exact ⟨_, rfl⟩
      | some i =>
          obtain ⟨v, hv, -⟩ := bsearch_some hs
          change ∃ st', (st[i]?.map fun v => st.set i v.blank).map (lib.sort.run nameCmp) = some st'
          rw [hv]
          exact ⟨_, rfl⟩

theorem variableDelete_star {program name : Bytes} (hstar : WildCard name) :
    variableDelete lib st program name =
      (deleteMatching program name st).map (lib.sort.run nameCmp) := by
  unfold variableDelete
  rw [hstar]
  exact if_pos rfl

theorem map_erase_exact {program name : Bytes} (hst : Ordered lib st)
    (hexact : name.getLast? ≠ some (chr '*')) {i : ℕ} {v : Variable} (hv : st[i]? = some v)
    (hname : v.name = program ++ name) (hne : v.name ≠ []) :
    st.set i v.blank = st.map (erase program name) := by
  have hlt := (List.getElem?_eq_some_iff.1 hv).1
  apply List.ext_getElem?
  intro j
  rw [List.getElem?_map]
  by_cases hij : i = j
  · subst hij
    rw [List.getElem?_set_self hlt, hv, Option.map_some, erase, deletes_exact hexact,
      if_pos (decide_eq_true hname.symm)]
  · rw [List.getElem?_set_ne hij]
    cases hu : st[j]? with
    | none => rfl
    | some u =>
        have hother : u.name ≠ v.name := fun heq => hij (hst.name_inj hv hu heq.symm hne)
        have hkept : ¬ deletes program name u.name = true := by
          rw [deletes_exact hexact, decide_eq_true_eq, ← hname]
          exact hother.symm
        rw [Option.map_some, erase, if_neg hkept]

theorem map_erase_of_absent {program name : Bytes}
    (hexact : name.getLast? ≠ some (chr '*')) (h : ∀ v ∈ st, v.name ≠ program ++ name) :
    st.map (erase program name) = st := by
  have hkept : ∀ v ∈ st, erase program name v = v := by
    intro v hv
    have hother : ¬ deletes program name v.name = true := by
      rw [deletes_exact hexact, decide_eq_true_eq]
      exact (h v hv).symm
    rw [erase, if_neg hother]
  rw [List.map_congr_left hkept, List.map_id']

/-- A delete that does not fail blanks what it takes and sorts the array. -/
theorem variableDelete_eq {program name : Bytes} {st' : Store} (hst : Ordered lib st)
    (h : variableDelete lib st program name = some st') :
    name ≠ [] ∧ st' = lib.sort.run nameCmp (st.map (erase program name)) := by
  unfold variableDelete at h
  cases hlast : name.getLast? with
  | none =>
      rw [hlast] at h
      cases h
  | some last =>
      have hne : name ≠ [] := by
        rintro rfl
        cases hlast
      rw [hlast] at h
      refine ⟨hne, ?_⟩
      by_cases hstar : last = chr '*'
      · change (if last = chr '*' then _ else _) = _ at h
        rw [if_pos hstar] at h
        obtain ⟨st₁, hst₁, rfl⟩ := Option.map_eq_some_iff.1 h
        rw [deleteMatching_eq hst₁]
      · have hexact : name.getLast? ≠ some (chr '*') := by
          rw [hlast]
          exact fun heq => hstar (Option.some.inj heq)
        have hfull : program ++ name ≠ [] := fun heq => hne (List.append_eq_nil_iff.1 heq).2
        change (if last = chr '*' then _ else _) = _ at h
        rw [if_neg hstar] at h
        cases hs : lib.bsearch st (program ++ name) with
        | none =>
            rw [hs] at h
            obtain rfl := Option.some.inj h
            have habsent : entry st (program ++ name) = none := by
              rw [← hst.bsearch_entry hfull, hs]
              rfl
            rw [map_erase_of_absent hexact ((entry_eq_none.1 habsent).resolve_left hfull)]
        | some i =>
            obtain ⟨v, hv, hname⟩ := bsearch_some hs
            rw [hs] at h
            change ((st[i]?.map fun v => st.set i v.blank).map (lib.sort.run nameCmp)) = _ at h
            rw [hv] at h
            obtain rfl := Option.some.inj h
            exact congrArg _ (map_erase_exact hst hexact hv hname (hname ▸ hfull))

theorem ordered_erase (hst : Ordered lib st) (program name : Bytes) :
    Ordered lib (lib.sort.run nameCmp (st.map (erase program name))) := by
  have hperm := lib.sort.perm nameCmp (st.map (erase program name))
  have hmem : ∀ v ∈ lib.sort.run nameCmp (st.map (erase program name)), v.name ≠ [] → v ∈ st := by
    intro v hv hne
    obtain ⟨u, hu, rfl⟩ := List.mem_map.1 (hperm.mem_iff.1 hv)
    rw [(erase_of_name hne).2]
    exact hu
  refine ⟨SortedArray.sorted_arrange nameCmp_eq_compare lib.sort _, ?_, ?_, ?_⟩
  · have hsymm : ∀ a b : Bytes, (a = b → a = []) → b = a → b = [] := by
      intro a b h heq
      rw [heq]
      exact h heq.symm
    refine ((hperm.map _).pairwise_iff (hsymm _ _ ·)).2 ?_
    have hdist := List.pairwise_map.1 hst.distinct
    rw [List.map_map]
    refine List.pairwise_map.2 (hdist.imp fun {a b} hab heq => ?_)
    by_contra hne
    have ha := erase_of_name hne
    have hb := erase_of_name (heq ▸ hne)
    have hnames : a.name = b.name := by
      change (erase program name a).name = (erase program name b).name at heq
      rwa [ha.2, hb.2] at heq
    change (erase program name a).name ≠ [] at hne
    rw [ha.2] at hne
    exact hne (hab hnames)
  · exact fun v hv hne => hst.hashed v (hmem v hv hne) hne
  · exact fun v hv hne => hst.signed v (hmem v hv hne) hne

theorem entry_erase (hst : Ordered lib st) (program name m : Bytes) :
    entry (lib.sort.run nameCmp (st.map (erase program name))) m =
      if deletes program name m then none else entry st m := by
  have hperm := lib.sort.perm nameCmp (st.map (erase program name))
  apply Option.ext
  intro v
  rw [(ordered_erase hst program name).entry_iff, hperm.mem_iff, List.mem_map]
  constructor
  · rintro ⟨⟨u, hu, rfl⟩, hname, hm⟩
    obtain ⟨hkept, heq⟩ := erase_of_name (hname ▸ hm)
    rw [heq] at hname ⊢
    rw [← hname, hkept, if_neg Bool.false_ne_true]
    exact hst.entry_iff.2 ⟨hu, rfl, hname ▸ hm⟩
  · intro h
    by_cases hd : deletes program name m
    · rw [if_pos hd] at h
      cases h
    · rw [if_neg hd] at h
      obtain ⟨hu, hname, hm⟩ := hst.entry_iff.1 h
      exact ⟨⟨v, hu, if_neg (hname ▸ hd)⟩, hname, hm⟩

/-- A delete takes away exactly the entries whose full name it matches. -/
theorem variableDelete_spec {program name : Bytes} {st' : Store} (hst : Ordered lib st)
    (h : variableDelete lib st program name = some st') :
    Ordered lib st' ∧
      ∀ m, entry st' m = if deletes program name m then none else entry st m := by
  obtain ⟨-, rfl⟩ := variableDelete_eq hst h
  exact ⟨ordered_erase hst program name, entry_erase hst program name⟩

end

end ScOpen
