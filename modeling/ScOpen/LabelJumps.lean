import ScOpen.MakeLabels

/-!
# Jumps to labels

When the labels of a source have been put, a `goto` leads behind the label of the current program,
or behind that of the default program, wherever it stands. The source is not run when a program has
two labels of one name.
-/

namespace ScOpen

section

variable {L : ScriptLibrary} {names : OwnNames} {places : List LabelPlace} {program : Bytes}
  {vars : ScriptState} {tokens : List Token} {i : ℕ}

/-! ## The pass over the tokens -/

theorem labelGet_nil (search : SortedArray.Search) (i : ℕ) : labelGet search [] i = [] := by
  rw [labelGet]
  cases SortedArray.find search idxCmp ⟨[], i, 0⟩ [] with
  | none => rfl
  | some k => rfl

/-- Before a source has been read, no label is in force anywhere. -/
theorem ScriptLibrary.put_unlabelled (hlabels : L.labels = []) (type : VarTypes) (i : ℕ)
    (name value : Bytes) (vars : ScriptState) :
    L.put type i name value 0 (some vars) =
      (variablePut L.store vars.store ⟨vars.program, []⟩ (cString name) value 0 type).map
        fun st => { vars with store := st } := by
  rw [ScriptLibrary.put, Option.bind_some, ScriptLibrary.position, hlabels, labelGet_nil]

theorem ScriptLibrary.putProgram_spec (hlabels : L.labels = [])
    (h : Labelled L.store names places vars.store) (program : Bytes) (i : ℕ) :
    ∃ st, L.putProgram i program vars = some ⟨st, program⟩ ∧ Labelled L.store names places st := by
  obtain ⟨st₁, hput₁, h₁⟩ := h.put_own program names.empty (cstr "DEFINED")
  obtain ⟨st₂, hput₂, h₂⟩ := h₁.put_own program names.begin_ (indexText i)
  have hdefined : L.put .sc i [] (cstr "DEFINED") 0 (some ⟨vars.store, program⟩) =
      some ⟨st₁, program⟩ := by
    rw [put_unlabelled hlabels]
    exact congrArg (Option.map _) hput₁
  have hbegun : L.put .sc i (cstr "BEGIN") (indexText i) 0 (some ⟨st₁, program⟩) =
      some ⟨st₂, program⟩ := by
    rw [put_unlabelled hlabels]
    exact congrArg (Option.map _) hput₂
  exact ⟨st₂, by rw [putProgram, hdefined, hbegun], h₂⟩

structure PutsLabels (lib : StoreLibrary) (names : OwnNames) (places : List LabelPlace)
    (run : ℕ × Option ScriptState) : Prop where
  puts : LabelsDistinct places → ∃ vars, run = (0, some vars) ∧
    Labelled lib names places vars.store
  ends : ¬ LabelsDistinct places → run = (0, none)

theorem LabelsDistinct.left {places' : List LabelPlace} (h : LabelsDistinct (places ++ places')) :
    LabelsDistinct places := by
  rw [LabelsDistinct, List.map_append] at h
  exact h.of_append_left

theorem begun {t : Token} (ht : t.type ≠ .variable_)
    (hplace : t.type = .endOfLine ∨ program = defaultProgram) (i : ℕ) (user : Option ScriptState) :
    programBegun t.type (L.readText i t user) program = some t.program := by
  rw [programBegun, ScriptLibrary.readText, if_neg ht, Token.program]
  by_cases hend : t.type = .endOfLine
  · rw [if_pos hend, if_pos hend]
  · rw [if_neg hend, if_neg hend, if_pos (hplace.resolve_left hend)]

/-- By induction on the sections, with the labels that have been put so far. -/
theorem ScriptLibrary.makeLabelsLoop_puts (hlabels : L.labels = [])
    (h : Sectioned names program tokens) {places : List LabelPlace} {vars : ScriptState} {i : ℕ}
    (hvars : vars.program = program) (hprogram : ProgramName program)
    (hlabelled : Labelled L.store names places vars.store) :
    PutsLabels L.store names (places ++ labelPlaces i program tokens)
      (L.makeLabelsLoop i tokens vars) := by
  induction h generalizing places vars i with
  | nil program =>
      rw [labelPlaces, List.append_nil]
      exact ⟨fun _ => ⟨vars, rfl, hlabelled⟩, fun hnot => absurd hlabelled.distinct hnot⟩
  | @begin_ program t u us ht hu hnone hplace hname h ih =>
      have hnull : t.type ≠ .nullToken := by
        rw [ht]
        decide
      obtain ⟨st, hput, hst⟩ := L.putProgram_spec hlabels hlabelled u.program (i + 2)
      have hbegun := @begun L program u hu hplace (i + 2) (some vars)
      have hloop : L.makeLabelsLoop i (t :: u :: us) vars =
          L.makeLabelsLoop (i + 2) us ⟨st, u.program⟩ := by
        rw [makeLabelsLoop, if_neg hnull, if_pos ht]
        simp only [hvars, hbegun, hput]
      rw [hloop, labelPlaces, if_pos ht]
      exact ih rfl hname hst
  | @end_ program t ts ht h ih =>
      have hnull : t.type ≠ .nullToken := by
        rw [ht]
        decide
      have hbegin : t.type ≠ .begin_ := by
        rw [ht]
        decide
      rw [makeLabelsLoop.eq_def, labelPlaces.eq_def]
      simp only [if_neg hnull, if_neg hbegin, if_pos ht]
      exact ih rfl List.not_mem_nil hlabelled
  | @label program t u us ht hu hname h ih =>
      have hnull : t.type ≠ .nullToken := by
        rcases ht with ht | ht <;> rw [ht] <;> decide
      have hbegin : t.type ≠ .begin_ := by
        rcases ht with ht | ht <;> rw [ht] <;> decide
      have hend : t.type ≠ .end_ := not_end_of_labels ht
      have hput := L.put_unlabelled hlabels .label (i + 2) u.text (indexText (i + 2)) vars
      rw [hvars] at hput
      rw [makeLabelsLoop, if_neg hnull, if_neg hbegin, if_neg hend, if_pos ht, labelPlaces,
        if_neg hbegin, if_neg hend, if_pos ht]
      simp only [if_pos hu]
      by_cases hnew : ∀ p ∈ places, ¬(p.program = program ∧ p.name = cString u.text)
      · obtain ⟨st, hst, hlabelled'⟩ := hlabelled.put_label hprogram hname (i + 2) hnew
        rw [hst, Option.map_some] at hput
        rw [hput, List.append_cons]
        exact ih rfl hprogram hlabelled'
      · simp only [not_forall, not_not] at hnew
        obtain ⟨p, hp, rfl, hsame⟩ := hnew
        have hstop := hlabelled.put_label_twice hp (indexText (i + 2))
        rw [hsame] at hstop
        rw [hstop, Option.map_none] at hput
        rw [hput, List.append_cons]
        refine ⟨fun hdistinct => ?_, fun _ => rfl⟩
        exact absurd ⟨rfl, hsame⟩ ((labelsDistinct_concat.1 hdistinct.left).2 p hp)
  | @other program t ts hnull hbegin hend hnone h ih =>
      rw [makeLabelsLoop.eq_def, labelPlaces.eq_def]
      simp only [if_neg hnull, if_neg hbegin, if_neg hend, if_neg hnone]
      exact ih hvars hprogram hlabelled

/-! ## Where the labels are -/

/-- Behind a token that begins no label. -/
theorem labelEnds_behind {t : Token} {ts : List Token} (ht : ¬ t.Labels) {idx : ℕ} {name : Bytes} :
    (∃ e, idx = i + 1 + e ∧ LabelEnds ts e name) ↔
      ∃ e, idx = i + e ∧ LabelEnds (t :: ts) e name := by
  constructor
  · rintro ⟨e, rfl, hends⟩
    exact ⟨e + 1, by omega, labelEnds_cons.2 (.inr ⟨e, rfl, hends⟩)⟩
  · rintro ⟨e, rfl, hends⟩
    rcases labelEnds_cons.1 hends with ⟨hlabels, -⟩ | ⟨e, rfl, hrest⟩
    · exact absurd hlabels ht
    · exact ⟨e, by omega, hrest⟩

/-- The places are where the names of labels end. -/
theorem mem_labelPlaces (h : Sectioned names program tokens) {idx : ℕ} {name : Bytes} :
    (∃ p ∈ labelPlaces i program tokens, p.idx = idx ∧ p.name = name) ↔
      ∃ e, idx = i + e ∧ LabelEnds tokens e name := by
  induction h generalizing i with
  | nil program =>
      refine iff_of_false ?_ ?_
      · rintro ⟨p, hp, -⟩
        cases hp
      · rintro ⟨e, -, hends⟩
        exact labelEnds_nil hends
  | @begin_ program t u us ht hu hnone hplace hname h ih =>
      have hlabels : ¬ t.Labels := by
        rw [Token.Labels, ht]
        decide
      rw [labelPlaces, if_pos ht, ih]
      constructor
      · rintro ⟨e, rfl, hends⟩
        refine ⟨e + 2, by omega, labelEnds_cons.2 (.inr ⟨e + 1, rfl, ?_⟩)⟩
        exact labelEnds_cons.2 (.inr ⟨e, rfl, hends⟩)
      · rintro ⟨e, rfl, hends⟩
        rcases labelEnds_cons.1 hends with ⟨hlabels', -⟩ | ⟨e, rfl, hrest⟩
        · exact absurd hlabels' hlabels
        rcases labelEnds_cons.1 hrest with ⟨hlabels', -⟩ | ⟨e, rfl, hbehind⟩
        · exact absurd hlabels' hnone
        · exact ⟨e, by omega, hbehind⟩
  | @end_ program t ts ht h ih =>
      have hbegin : t.type ≠ .begin_ := by
        rw [ht]
        decide
      have hlabels : ¬ t.Labels := by
        rw [Token.Labels, ht]
        decide
      rw [labelPlaces.eq_def]
      simp only [if_neg hbegin, if_pos ht, ih]
      exact labelEnds_behind hlabels
  | @label program t u us ht hu hname h ih =>
      have hbegin : t.type ≠ .begin_ := by
        rcases ht with ht | ht <;> rw [ht] <;> decide
      have hnone := not_labels_of_identifier hu
      rw [labelPlaces, if_neg hbegin, if_neg (not_end_of_labels ht), if_pos ht]
      simp only [List.mem_cons, exists_eq_or_imp, ih]
      constructor
      · rintro (⟨rfl, rfl⟩ | ⟨e, rfl, hends⟩)
        · exact ⟨2, rfl, labelEnds_cons.2 (.inl ⟨ht, rfl, u, us, rfl, hu, rfl⟩)⟩
        · refine ⟨e + 2, by omega, labelEnds_cons.2 (.inr ⟨e + 1, rfl, ?_⟩)⟩
          exact labelEnds_cons.2 (.inr ⟨e, rfl, hends⟩)
      · rintro ⟨e, rfl, hends⟩
        rcases labelEnds_cons.1 hends with ⟨-, rfl, v, vs, heq, -, rfl⟩ | ⟨e, rfl, hrest⟩
        · cases heq
          exact .inl ⟨rfl, rfl⟩
        rcases labelEnds_cons.1 hrest with ⟨hlabels', -⟩ | ⟨e, rfl, hbehind⟩
        · exact absurd hlabels' hnone
        · exact .inr ⟨e, by omega, hbehind⟩
  | @other program t ts hnull hbegin hend hnone h ih =>
      rw [labelPlaces.eq_def]
      simp only [if_neg hbegin, if_neg hend, if_neg hnone, ih]
      exact labelEnds_behind hnone

theorem ScriptLibrary.makeLabels_puts (hlabels : L.labels = [])
    (h : Sectioned names defaultProgram tokens) (hstart : Labelled L.store names [] vars.store) :
    PutsLabels L.store names (labelPlaces 0 defaultProgram tokens) (L.makeLabels tokens vars) := by
  have hloop := @makeLabelsLoop_puts L names _ _ hlabels h [] { vars with program := defaultProgram } 0
    rfl List.not_mem_nil hstart
  rw [List.nil_append] at hloop
  constructor
  · intro hdistinct
    obtain ⟨vars', hrun, hlabelled⟩ := hloop.puts hdistinct
    exact ⟨{ vars' with program := defaultProgram }, by rw [makeLabels, hrun]; rfl, hlabelled⟩
  · intro hnot
    rw [makeLabels, hloop.ends hnot]
    rfl

/-- The index is read as it was printed. -/
theorem Labelled.index (h : Labelled L.store names places vars.store)
    (hroom : ∀ p ∈ places, p.idx < 2 ^ 32) {name : Bytes}
    (hname : LabelName names (cString name)) (i : ℕ) :
    L.language.label i name (some vars) = labelAt places vars.program (cString name) := by
  have hget : L.get .label i name (some vars) =
      (labelAt places vars.program (cString name)).map indexText :=
    h.get (L.position vars i) hname
  have hlabel : L.language.label i name (some vars) =
      (L.get .label i name (some vars)).map Expression.scanUnsignedOrZero := rfl
  rw [hlabel, hget, Option.map_map]
  cases hat : labelAt places vars.program (cString name) with
  | none => rfl
  | some idx =>
      have hmem : ∃ p ∈ places, p.idx = idx := by
        obtain ⟨p, hp, rfl⟩ := Option.map_eq_some_iff.1 hat
        rcases Option.or_eq_some_iff.1 hp with hp | ⟨-, hp⟩
        · exact ⟨p, List.mem_of_find?_eq_some hp, rfl⟩
        · exact ⟨p, List.mem_of_find?_eq_some hp, rfl⟩
      obtain ⟨p, hp, rfl⟩ := hmem
      rw [Option.map_some, Function.comp_apply, scanUnsigned_indexText (hroom p hp)]

/-- A `goto` to a name leads behind its label, and fails where there is none. -/
theorem Labelled.goto (h : Labelled L.store names places vars.store)
    (hroom : ∀ p ∈ places, p.idx < 2 ^ 32) {p q : Running (Option ScriptState)} {name : Bytes}
    (heval : evaluate L.language p = (0, name, q)) (huser : q.env.user = some vars)
    (hname : LabelName names (cString name)) :
    cmdGoto L.language p = (labelAt places vars.program (cString name)).elim (1, q)
      fun idx => (0, setProgramTokenIdx idx q) := by
  have hlabel := h.index hroom hname q.programIdx
  rw [cmdGoto, heval]
  simp only [ne_eq, not_true_eq_false, if_false, huser, hlabel]
  cases labelAt places vars.program (cString name) with
  | none => rfl
  | some idx => rfl

end

end ScOpen
