import ScOpen.VariableScopes

/-!
# What a delete takes

The name that `variable_delete()` looks for has no parentheses around the program, so it is not the
one a variable of the program is stored under.
-/

namespace ScOpen

section

variable {lib : StoreLibrary} {st : Store}

/-- The full name that is looked for is never that of a variable of the program. -/
theorem append_ne_programFull (program name : Bytes) :
    program ++ name ≠ programFull program name := by
  intro h
  have hlen := congrArg List.length h
  simp only [programFull, List.length_append] at hlen
  have hone : (cstr "(").length = 1 := rfl
  have hone' : (cstr ")").length = 1 := rfl
  omega

theorem bsearch_isSome_iff (hst : Ordered lib st) (n : Bytes) :
    (lib.bsearch st n).isSome ↔ ∃ v ∈ st, v.hash = lib.hash n ∧ v.name = n := by
  constructor
  · intro h
    obtain ⟨i, hi⟩ := Option.isSome_iff_exists.1 h
    obtain ⟨v, hv, heq⟩ := SortedArray.find_some hi
    obtain ⟨hhash, hname⟩ := nameCmp_eq.1 heq
    exact ⟨v, List.mem_of_getElem? hv, hhash.symm, hname.symm⟩
  · rintro ⟨v, hv, hhash, hname⟩
    have hkey : (lib.named n [] .user).key = v.key := key_inj.2 ⟨hhash.symm, hname.symm⟩
    obtain ⟨i, hi⟩ :=
      SortedArray.find_exists nameCmp_eq_compare (s := lib.search) hst.sorted hv hkey
    exact Option.isSome_iff_exists.2 ⟨i, hi⟩

theorem lookUp_isSome (n : Bytes) : (lookUp lib st n).isSome ↔ (lib.bsearch st n).isSome := by
  unfold lookUp
  cases h : lib.bsearch st n with
  | none => exact Iff.rfl
  | some i =>
      obtain ⟨v, hv, -⟩ := bsearch_some h
      rw [Option.bind_some, hv]
      exact Iff.rfl

/-- Whether a variable is found depends on the entries only, not on how they are arranged. -/
theorem variableGet_perm {st' : Store} (hst : Ordered lib st) (hst' : Ordered lib st')
    (hperm : st'.Perm st) (hentry : ∀ n, entry st' n = entry st n) (pos : Position)
    (name : Bytes) :
    variableGet lib st' pos name .user = none ↔ variableGet lib st pos name .user = none := by
  have hresolve : resolveEntry st' pos name .user = resolveEntry st pos name .user := by
    unfold resolveEntry
    rw [hentry, hentry, hentry]
  have huser : VarTypes.user ≠ .userRef := by decide
  cases h : resolveEntry st pos name .user with
  | none => exact iff_of_true (variableGet_none hst' (hresolve.trans h)) (variableGet_none hst h)
  | some v =>
      rw [variableGet_some hst' (hresolve.trans h), variableGet_some hst h, if_neg huser,
        if_neg huser, valueOf, valueOf]
      by_cases href : v.type = .userRef
      · rw [if_pos href, if_pos href, Option.map_eq_none_iff, Option.map_eq_none_iff,
          ← Option.not_isSome_iff_eq_none, ← Option.not_isSome_iff_eq_none, not_iff_not,
          lookUp_isSome, lookUp_isSome, bsearch_isSome_iff hst', bsearch_isSome_iff hst]
        exact exists_congr fun u => and_congr_left fun _ => hperm.mem_iff
      · rw [if_neg href, if_neg href]

end

/-! ## When a delete takes what it names -/

/-- The variable is no longer found at program level and nothing else is gone; with a `*` exactly
the program's variables whose names start so are gone. -/
def DeleteRight (lib : StoreLibrary) (st : Store) (program name : Bytes) : Prop :=
  ∃ st', variableDelete lib st program name = some st' ∧
    if WildCard name then
      ∀ n, entry st' n =
        if programFull program name.dropLast <+: n then none else entry st n
    else variableGet lib st' ⟨program, []⟩ name .user = none ∧
      ∀ n, n ≠ programFull program name → entry st' n = entry st n

/-- The variable is not found in the first place, and no entry is called as the program and the
name after it. With a `*`, the full names that start with the program and the prefix are those that
start with the program in parentheses and the prefix, and no blank entry starts so. -/
def DeleteFits (lib : StoreLibrary) (st : Store) (program name : Bytes) : Prop :=
  name ≠ [] ∧
    if WildCard name then
      (∀ v ∈ st, v.name = [] → ¬ program ++ name.dropLast <+: []) ∧
        ∀ v ∈ st, v.name ≠ [] →
          (program ++ name.dropLast <+: v.name ↔ programFull program name.dropLast <+: v.name)
    else variableGet lib st ⟨program, []⟩ name .user = none ∧
      ∀ v ∈ st, v.name ≠ program ++ name

section

variable {lib : StoreLibrary}

theorem delete_star_right_iff {st : Store} {program name : Bytes} (hst : Ordered lib st)
    (hstar : WildCard name) : DeleteRight lib st program name ↔ DeleteFits lib st program name := by
  have hne : name ≠ [] := by
    rintro rfl
    cases hstar
  unfold DeleteRight DeleteFits
  rw [variableDelete_star hstar]
  simp only [if_pos hstar]
  constructor
  · rintro ⟨st', hdelete, hright⟩
    obtain ⟨st₁, hmatching, rfl⟩ := Option.map_eq_some_iff.1 hdelete
    have hblank := mem_of_deleteMatching hmatching
    have hentry := entry_erase hst program name
    rw [← deleteMatching_eq hmatching] at hentry
    refine ⟨hne, ?_, ?_⟩
    · intro v hv hnil hstart
      exact hblank v hv (by rwa [deletes_star hstar, hnil]) hnil
    · intro v hv hname
      have hsome : entry st v.name = some v := hst.entry_iff.2 ⟨hv, rfl, hname⟩
      have heq := (hentry v.name).symm.trans (hright v.name)
      rw [← deletes_star hstar, hsome] at *
      by_cases hd : deletes program name v.name = true
      · rw [if_pos hd] at heq
        by_cases hfull : programFull program name.dropLast <+: v.name
        · exact iff_of_true hd hfull
        · rw [if_neg hfull] at heq
          cases heq
      · rw [if_neg hd] at heq
        by_cases hfull : programFull program name.dropLast <+: v.name
        · rw [if_pos hfull] at heq
          cases heq
        · exact iff_of_false hd hfull
  · rintro ⟨-, hblank, hnames⟩
    have hmatching : deleteMatching program name st = some (st.map (erase program name)) := by
      refine deleteMatching_some fun v hv hd hnil => ?_
      rw [deletes_star hstar, hnil] at hd
      exact hblank v hv hnil hd
    refine ⟨_, by rw [hmatching]; rfl, fun n => ?_⟩
    rw [entry_erase hst]
    cases he : entry st n with
    | none => rw [ite_self, ite_self]
    | some v =>
        obtain ⟨hv, rfl, hname⟩ := entry_mem he
        exact if_congr ((deletes_star hstar _).trans (hnames v hv hname)) rfl rfl

theorem erase_absent {st : Store} {program name : Bytes} (hst : Ordered lib st)
    (hexact : ¬ WildCard name) (habsent : ∀ v ∈ st, v.name ≠ program ++ name) :
    (lib.sort.run nameCmp (st.map (erase program name))).Perm st ∧
      ∀ n, entry (lib.sort.run nameCmp (st.map (erase program name))) n = entry st n := by
  constructor
  · rw [map_erase_of_absent hexact habsent]
    exact lib.sort.perm _ _
  · intro n
    rw [entry_erase hst, deletes_exact hexact]
    by_cases hn : program ++ name = n
    · rw [if_pos (decide_eq_true hn)]
      exact (entry_eq_none.2 (.inr (hn ▸ habsent))).symm
    · exact if_neg fun h => hn (of_decide_eq_true h)

theorem delete_exact_right_iff {st : Store} {program name : Bytes} (hst : Ordered lib st)
    (hexact : ¬ WildCard name) :
    DeleteRight lib st program name ↔ DeleteFits lib st program name := by
  have hord := ordered_erase hst program name
  unfold DeleteRight DeleteFits
  simp only [if_neg hexact]
  constructor
  · rintro ⟨st', hdelete, hget, hother⟩
    obtain ⟨hne, rfl⟩ := variableDelete_eq hst hdelete
    have hfull : program ++ name ≠ [] := fun heq => hne (List.append_eq_nil_iff.1 heq).2
    -- what the delete takes is not the variable, so it must not be there
    have habsent : ∀ v ∈ st, v.name ≠ program ++ name := by
      have hsame := hother _ (append_ne_programFull program name)
      rw [entry_erase hst, deletes_exact hexact, if_pos (decide_eq_true rfl)] at hsame
      exact (entry_eq_none.1 hsame.symm).resolve_left hfull
    obtain ⟨hperm, hsame⟩ := erase_absent hst hexact habsent
    exact ⟨hne, (variableGet_perm hst hord hperm hsame _ _).1 hget, habsent⟩
  · rintro ⟨hne, hget, habsent⟩
    obtain ⟨st', hdelete⟩ := variableDelete_exact hne hexact
    obtain ⟨hperm, hsame⟩ := erase_absent hst hexact habsent
    obtain ⟨-, rfl⟩ := variableDelete_eq hst hdelete
    exact ⟨_, hdelete, (variableGet_perm hst hord hperm hsame _ _).2 hget, fun n _ => hsame n⟩

/-- A delete does what it should exactly when there is nothing for it to do, or the parentheses
happen not to matter. -/
theorem delete_right_iff {s : Tracked} (h : s.Reached lib) (program name : Bytes) :
    DeleteRight lib s.store program name ↔ DeleteFits lib s.store program name := by
  by_cases hstar : WildCard name
  · exact delete_star_right_iff h.right.ordered hstar
  · exact delete_exact_right_iff h.right.ordered hstar

end

def firstVariable (program : Bytes) : Store :=
  [⟨cstr "(" ++ program ++ cstr ")x", cstr "1", .user,
    getHash (cstr "(" ++ program ++ cstr ")x")⟩]

/-- Without programs a `*` alone deletes all variables. -/
theorem delete_right_iff_all :
    DeleteRight plainLibrary (firstVariable defaultProgram) defaultProgram (cstr "*") := by
  have hstart : Tracked.Starts ⟨[], []⟩ := rfl
  have hput : Tracked.step plainLibrary ⟨[], []⟩
      (.put topLevel (cstr "x") (cstr "1") 1 .user) =
        some ⟨firstVariable defaultProgram, [cstr "()x"]⟩ := rfl
  have hreached : Tracked.Reached plainLibrary _ := (Runs.Reaches.start hstart).next trivial hput
  have hstar : WildCard (cstr "*") := by decide
  refine (delete_right_iff hreached defaultProgram (cstr "*")).2 ⟨by decide, ?_⟩
  rw [if_pos hstar]
  constructor
  · intro v hv
    rw [List.mem_singleton.1 hv]
    decide
  · intro v hv
    rw [List.mem_singleton.1 hv]
    decide

/-- A variable of the program `p` is still there after it was deleted. -/
theorem not_always_deleted :
    ¬ DeleteRight plainLibrary (firstVariable (cstr "p")) (cstr "p") (cstr "x") := by
  rintro ⟨st', hdelete, hright⟩
  have hexact : ¬ WildCard (cstr "x") := by decide
  have hsame : variableDelete plainLibrary (firstVariable (cstr "p")) (cstr "p") (cstr "x") =
      some (firstVariable (cstr "p")) := rfl
  rw [hsame] at hdelete
  cases hdelete
  rw [if_neg hexact] at hright
  have hget : variableGet plainLibrary (firstVariable (cstr "p")) ⟨cstr "p", []⟩ (cstr "x") .user =
      some (cstr "1") := rfl
  rw [hget] at hright
  cases hright.1

end ScOpen
