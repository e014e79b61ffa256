import ScOpen.IntegerValues
import ScOpen.MakeTmpVariables

/-!
# The variables of a message

What the loop makes of the tokens of a message is compared with what the arguments say: a named
value for each, and a number for each of the others. The two differ only where a string that is a
`=` comes directly behind another argument without a name.
-/

namespace ScOpen

/-! ## Puts -/

structure TmpTable.Tidy (lib : TmpLibrary) (t : TmpTable) : Prop where
  ordered : t.Ordered lib
  nodup : (t.entries.map TmpEntry.name).Nodup

def TmpTable.put (lib : TmpLibrary) (t : TmpTable) (p : Bytes × Bytes) : TmpTable :=
  tmpVariablePut lib (fun _ => 0) t p.1 p.2 p.2.length

section

variable {lib : TmpLibrary} {t : TmpTable}

theorem putEntry_behind {value : Bytes} (hzero : 0 ∉ value) (behind : ℕ → UInt8) (name : Bytes) :
    lib.putEntry behind name value value.length = ⟨name, value, value.length, lib.hash name⟩ := by
  rw [TmpLibrary.putEntry, (copied_iff value).2 fun h => hzero (List.dropLast_subset value h)]

theorem put_behind {value : Bytes} (hzero : 0 ∉ value) (behind : ℕ → UInt8) (name : Bytes) :
    tmpVariablePut lib behind t name value value.length = t.put lib (name, value) := by
  simp only [TmpTable.put, tmpVariablePut, putEntry_behind hzero]

theorem bsearch_eq_none_iff (h : t.Ordered lib) (name : Bytes) :
    lib.bsearch t.entries name = none ↔ name ∉ t.entries.map TmpEntry.name := by
  constructor
  · intro hs hmem
    obtain ⟨v, hv, hname⟩ := List.mem_map.1 hmem
    exact name_notMem h hs hv hname
  · intro hnot
    cases hs : lib.bsearch t.entries name with
    | none => rfl
    | some i =>
        obtain ⟨v, hv, -, hname⟩ := tmp_bsearch_some hs
        exact absurd (List.mem_map.2 ⟨v, List.mem_of_getElem? hv, hname⟩) hnot

/-- A get reads the entry of the name. -/
theorem get_eq_some_iff (h : t.Tidy lib) (behind : ℕ → UInt8) (name value : Bytes) :
    tmpVariableGet lib behind t name = some value ↔
      ∃ v ∈ t.entries, v.name = name ∧ bytesAt behind v.value v.length = value := by
  have hunique : ∀ v ∈ t.entries, ∀ u ∈ t.entries, u.name = v.name → u = v :=
    fun v hv u hu hname => List.inj_on_of_nodup_map h.nodup hu hv hname
  constructor
  · intro hget
    cases hs : lib.bsearch t.entries name with
    | none =>
        rw [tmpVariableGet, hs] at hget
        cases hget
    | some i =>
        obtain ⟨v, hv, -, hname⟩ := tmp_bsearch_some hs
        rw [get_of_bsearch hs hv, Option.some.injEq] at hget
        exact ⟨v, List.mem_of_getElem? hv, hname, hget⟩
  · rintro ⟨v, hv, rfl, rfl⟩
    exact get_of_unique h.ordered hv (hunique v hv) behind

/-- A variable that is new is there after the put, and the others are as they were. -/
theorem mem_put_new (h : t.Ordered lib) {name value : Bytes} (hzero : 0 ∉ value)
    (hnew : name ∉ t.entries.map TmpEntry.name) (v : TmpEntry) :
    v ∈ (t.put lib (name, value)).entries ↔
      v = ⟨name, value, value.length, lib.hash name⟩ ∨ v ∈ t.entries := by
  by_cases hnil : t.entries = []
  · rw [TmpTable.put, put_first lib hnil, hnil, putEntry_behind hzero]
    exact List.mem_cons
  · rw [TmpTable.put, put_new lib hnil ((bsearch_eq_none_iff h name).2 hnew),
      putEntry_behind hzero]
    exact (SortedArray.perm_insertAt _ _ _).mem_iff.trans List.mem_cons

/-- The names after a put. -/
theorem names_put (h : t.Tidy lib) (p : Bytes × Bytes) :
    ((t.put lib p).entries.map TmpEntry.name).Nodup ∧
      ∀ name, name ∈ (t.put lib p).entries.map TmpEntry.name ↔
        name = p.1 ∨ name ∈ t.entries.map TmpEntry.name := by
  have hnew : ∀ entries : List TmpEntry, entries.Perm
      (lib.putEntry (fun _ => 0) p.1 p.2 p.2.length :: t.entries) →
      p.1 ∉ t.entries.map TmpEntry.name →
      (entries.map TmpEntry.name).Nodup ∧ ∀ name, name ∈ entries.map TmpEntry.name ↔
        name = p.1 ∨ name ∈ t.entries.map TmpEntry.name := by
    intro entries hperm hnot
    have hnames := hperm.map TmpEntry.name
    exact ⟨hnames.nodup_iff.2 (List.nodup_cons.2 ⟨hnot, h.nodup⟩),
      fun name => hnames.mem_iff.trans List.mem_cons⟩
  by_cases hnil : t.entries = []
  · refine hnew _ ?_ (by rw [hnil]; exact List.not_mem_nil)
    rw [TmpTable.put, put_first lib hnil, hnil]
  · cases hs : lib.bsearch t.entries p.1 with
    | none =>
        refine hnew _ ?_ ((bsearch_eq_none_iff h.ordered p.1).1 hs)
        rw [TmpTable.put, put_new lib hnil hs]
        exact SortedArray.perm_insertAt _ _ _
    | some i =>
        obtain ⟨v, hv, -, hname⟩ := tmp_bsearch_some hs
        have hsame : (t.put lib p).entries.map TmpEntry.name = t.entries.map TmpEntry.name := by
          rw [TmpTable.put, put_old lib hnil hs hv]
          exact SortedArray.map_set hv rfl
        rw [hsame]
        refine ⟨h.nodup, fun name => (or_iff_right_of_imp ?_).symm⟩
        rintro rfl
        exact List.mem_map.2 ⟨v, List.mem_of_getElem? hv, hname⟩

theorem tidy_put (h : t.Tidy lib) (p : Bytes × Bytes) : (t.put lib p).Tidy lib :=
  ⟨ordered_put h.ordered _ _ _ _, (names_put h p).1⟩

theorem tidy_puts (h : t.Tidy lib) (puts : List (Bytes × Bytes)) :
    (puts.foldl (TmpTable.put lib) t).Tidy lib := by
  induction puts generalizing t with
  | nil => exact h
  | cons p puts ih => exact ih (tidy_put h p)

theorem names_puts (h : t.Tidy lib) (puts : List (Bytes × Bytes)) (name : Bytes) :
    name ∈ (puts.foldl (TmpTable.put lib) t).entries.map TmpEntry.name ↔
      name ∈ puts.map (·.1) ∨ name ∈ t.entries.map TmpEntry.name := by
  induction puts generalizing t with
  | nil => simp
  | cons p puts ih =>
      rw [List.foldl_cons, ih (tidy_put h p), (names_put h p).2, List.map_cons, List.mem_cons,
        or_left_comm, or_assoc]

/-- Puts under different names leave the values that they are given. -/
theorem entries_puts (h : t.Tidy lib) {puts : List (Bytes × Bytes)}
    (hnodup : (puts.map (·.1)).Nodup) (hnew : ∀ p ∈ puts, p.1 ∉ t.entries.map TmpEntry.name)
    (hzero : ∀ p ∈ puts, 0 ∉ p.2) (v : TmpEntry) :
    v ∈ (puts.foldl (TmpTable.put lib) t).entries ↔
      (∃ p ∈ puts, v = ⟨p.1, p.2, p.2.length, lib.hash p.1⟩) ∨ v ∈ t.entries := by
  induction puts generalizing t with
  | nil => simp
  | cons p puts ih =>
      rw [List.map_cons, List.nodup_cons] at hnodup
      have hlater : ∀ q ∈ puts, q.1 ∉ (t.put lib p).entries.map TmpEntry.name := by
        intro q hq hmem
        rcases ((names_put h p).2 q.1).1 hmem with heq | hold
        · exact hnodup.1 (heq ▸ List.mem_map_of_mem hq)
        · exact hnew q (List.mem_cons_of_mem _ hq) hold
      rw [List.foldl_cons, ih (tidy_put h p) hnodup.2 hlater
        fun q hq => hzero q (List.mem_cons_of_mem _ hq),
        mem_put_new h.ordered (hzero p List.mem_cons_self) (hnew p List.mem_cons_self)]
      simp only [List.mem_cons, exists_eq_or_imp]
      rw [or_left_comm, or_assoc]

/-- What is read after puts under different names into an array without variables. -/
theorem get_puts {puts : List (Bytes × Bytes)} (hnil : t.entries = [])
    (hnodup : (puts.map (·.1)).Nodup) (hzero : ∀ p ∈ puts, 0 ∉ p.2) (behind : ℕ → UInt8)
    (name value : Bytes) :
    tmpVariableGet lib behind (puts.foldl (TmpTable.put lib) t) name = some value ↔
      (name, value) ∈ puts := by
  have htidy : t.Tidy lib := by
    refine ⟨⟨?_, ?_⟩, ?_⟩ <;> rw [hnil]
    · exact List.Pairwise.nil
    · exact fun v hv => absurd hv List.not_mem_nil
    · exact List.nodup_nil
  rw [get_eq_some_iff (tidy_puts htidy puts)]
  have hentries := entries_puts htidy hnodup (by simp [hnil]) hzero
  constructor
  · rintro ⟨v, hv, rfl, rfl⟩
    rcases (hentries v).1 hv with ⟨p, hp, rfl⟩ | hold
    · rw [bytesAt_self]
      exact hp
    · rw [hnil] at hold
      exact absurd hold List.not_mem_nil
  · intro hmem
    exact ⟨_, (hentries _).2 (.inl ⟨(name, value), hmem, rfl⟩), rfl, bytesAt_self⟩

end

/-! ## What the loop takes tokens for -/

inductive ArgStep where
  | numbered (x : Bytes)
  | named (x value : Bytes)

def argSteps : List Bytes → List ArgStep
  | [] => []
  | [x] => [.numbered x]
  | x :: y :: tokens =>
      if y = cstr "=" then
        match tokens with
        | [] => [.named x []]
        | value :: tokens => .named x value :: argSteps tokens
      else .numbered x :: argSteps (y :: tokens)

def stepPuts : ℕ → List ArgStep → List (Bytes × Bytes)
  | argNum, [] => [(cstr "NUM_ARG", decimal argNum)]
  | argNum, .numbered x :: steps => (argName argNum, x) :: stepPuts (argNum + 1) steps
  | argNum, .named x value :: steps => (x, value) :: stepPuts argNum steps

def ArgStep.numbered? : ArgStep → Option Bytes
  | .numbered x => some x
  | .named _ _ => none

def ArgStep.named? : ArgStep → Option (Bytes × Bytes)
  | .numbered _ => none
  | .named x value => some (x, value)

def numberedTexts (steps : List ArgStep) : List Bytes := steps.filterMap ArgStep.numbered?

def namedValues (steps : List ArgStep) : List (Bytes × Bytes) := steps.filterMap ArgStep.named?

def numberedFrom (argNum : ℕ) (texts : List Bytes) : List (Bytes × Bytes) :=
  (texts.zipIdx argNum).map fun p => (argName p.2, p.1)

section

variable {x y value : Bytes} {tokens : List Bytes}

theorem argSteps_numbered (hy : y ≠ cstr "=") :
    argSteps (x :: y :: tokens) = .numbered x :: argSteps (y :: tokens) := by
  rw [argSteps.eq_def]
  exact if_neg hy

theorem argSteps_named :
    argSteps (x :: cstr "=" :: value :: tokens) = .named x value :: argSteps tokens := by
  rw [argSteps.eq_def]
  exact if_pos rfl

theorem argSteps_cut : argSteps [x, cstr "="] = [.named x []] := by
  rw [argSteps.eq_def]
  exact if_pos rfl

end

theorem stepPuts_perm (steps : List ArgStep) (argNum : ℕ) :
    (stepPuts argNum steps).Perm
      ((cstr "NUM_ARG", decimal (argNum + (numberedTexts steps).length)) ::
        (namedValues steps ++ numberedFrom argNum (numberedTexts steps))) := by
  induction steps generalizing argNum with
  | nil => exact List.Perm.refl _
  | cons step steps ih =>
      cases step with
      | numbered x =>
          have hcount : argNum + (numberedTexts (.numbered x :: steps)).length =
              argNum + 1 + (numberedTexts steps).length := by
            simp only [numberedTexts, List.filterMap_cons, ArgStep.numbered?, List.length_cons]
            omega
          rw [hcount]
          refine ((ih (argNum + 1)).cons _).trans ((List.Perm.swap _ _ _).trans ?_)
          exact (List.perm_middle.symm).cons _
      | named x value => exact ((ih argNum).cons _).trans (List.Perm.swap _ _ _)

/-- Two tokens of a name go to no number, but for a last name without a value. -/
theorem argSteps_lengths (tokens : List Bytes) :
    tokens.length ≤ (numberedTexts (argSteps tokens)).length +
        3 * (namedValues (argSteps tokens)).length ∧
      (numberedTexts (argSteps tokens)).length + 3 * (namedValues (argSteps tokens)).length ≤
        tokens.length + 1 := by
  induction tokens using argSteps.induct with
  | case1 => exact ⟨le_refl _, Nat.zero_le _⟩
  | case2 x => exact ⟨le_refl _, Nat.le_succ _⟩
  | case3 x =>
      rw [argSteps_cut]
      exact ⟨Nat.le_succ 2, le_refl 3⟩
  | case4 x value tokens ih =>
      rw [argSteps_named]
      simp only [numberedTexts, namedValues, List.filterMap_cons, ArgStep.numbered?,
        ArgStep.named?, List.length_cons] at ih ⊢
      omega
  | case5 x y tokens hy ih =>
      rw [argSteps_numbered hy]
      simp only [numberedTexts, namedValues, List.filterMap_cons, ArgStep.numbered?,
        ArgStep.named?, List.length_cons] at ih ⊢
      omega

/-! ## The loop over a text of arguments -/

section

variable {lib : TmpLibrary} {memory : ℕ → ℕ → UInt8} {noParse : Bytes}

theorem zero_notMem_decimal (n : ℕ) : 0 ∉ decimal n := fun h =>
  absurd (isDigit_of_mem_decimal h) (by decide)

theorem TokenTexts.drop_nil {buf : Bytes} (h : TokenTexts noParse buf []) (n : ℕ) :
    TokenTexts noParse (buf.drop n) [] := by
  cases h with
  | nil h => exact .nil fun c hc => h c (List.mem_of_mem_drop hc)

theorem TokenTexts.parse_nil (h : Separating noParse) {buf : Bytes}
    (ht : TokenTexts noParse buf []) :
    parse buf noParse false false = .token [] .null buf.length := by
  cases ht with
  | nil hb => exact parse_end h hb

/-- A turn for a token that is not in front of a `=`. -/
theorem makeTmpLoop_numbered {buf rest x y : Bytes} {type type' : ParseType} {cnt cnt' : ℕ}
    (hparse : parse buf noParse false false = .token x type cnt) (hrest : buf.drop cnt = rest)
    (htype : type ≠ .null ∧ type ≠ .endOfLine) (hx : 0 ∉ x)
    (hnext : parse rest noParse false false = .token y type' cnt') (hy : 0 ∉ y)
    (hne : y ≠ cstr "=") (n argNum : ℕ) (t : TmpTable) :
    makeTmpLoop lib memory noParse (n + 1) buf argNum t =
      makeTmpLoop lib memory noParse n rest (argNum + 1) (t.put lib (argName argNum, x)) := by
  rw [makeTmpLoop]
  simp only [hparse, hrest, htype.1, htype.2, or_self, if_false, hnext, cString_eq_self hx,
    cString_eq_self hy, hne, put_behind hx]

/-- A turn for a name and its value. -/
theorem makeTmpLoop_named {buf rest behind x value : Bytes} {type type' type'' : ParseType}
    {cnt cnt' cnt'' : ℕ} (hparse : parse buf noParse false false = .token x type cnt)
    (hrest : buf.drop cnt = rest) (htype : type ≠ .null ∧ type ≠ .endOfLine) (hx : 0 ∉ x)
    (hnext : parse rest noParse false false = .token (cstr "=") type' cnt')
    (hbehind : rest.drop cnt' = behind)
    (hvalue : parse behind noParse false false = .token value type'' cnt'') (hv : 0 ∉ value)
    (n argNum : ℕ) (t : TmpTable) :
    makeTmpLoop lib memory noParse (n + 1) buf argNum t =
      makeTmpLoop lib memory noParse n (behind.drop cnt'') argNum (t.put lib (x, value)) := by
  have hequals : cString (cstr "=") = cstr "=" := by decide
  rw [makeTmpLoop]
  simp only [hparse, hrest, htype.1, htype.2, or_self, if_false, hnext, hequals, if_true,
    hbehind, hvalue, cString_eq_self hx, put_behind hv]

/-- The last turn. -/
theorem makeTmpLoop_end (h : Separating noParse) {buf : Bytes} (ht : TokenTexts noParse buf [])
    (n argNum : ℕ) (t : TmpTable) :
    makeTmpLoop lib memory noParse (n + 1) buf argNum t =
      some (t.put lib (cstr "NUM_ARG", decimal argNum)) := by
  rw [makeTmpLoop]
  simp only [ht.parse_nil h, true_or, if_true, put_behind (zero_notMem_decimal argNum)]

/-- The loop makes its turns over the tokens. -/
theorem makeTmpLoop_tokens (h : Separating noParse) {tokens : List Bytes} {buf : Bytes}
    (ht : TokenTexts noParse buf tokens) {n : ℕ} (hn : tokens.length ≤ n) (argNum : ℕ)
    (t : TmpTable) : makeTmpLoop lib memory noParse (n + 1) buf argNum t =
      some ((stepPuts argNum (argSteps tokens)).foldl (TmpTable.put lib) t) := by
  induction tokens using argSteps.induct generalizing buf n argNum t with
  | case1 => exact makeTmpLoop_end h ht n argNum t
  | case2 x =>
      obtain ⟨n, rfl⟩ := Nat.exists_eq_add_of_le' hn
      cases ht with
      | cons hparse hrest htype hzero hnil =>
          rw [List.length_singleton, makeTmpLoop_numbered hparse hrest htype hzero
            (hnil.parse_nil h) List.not_mem_nil (by decide), makeTmpLoop_end h hnil]
          rfl
  | case3 x =>
      obtain ⟨n, rfl⟩ := Nat.exists_eq_add_of_le' (Nat.le_of_succ_le hn)
      cases ht with
      | cons hparse hrest htype hzero ht =>
          cases ht with
          | cons hparse' hrest' htype' hzero' hnil =>
              rw [List.length_singleton, makeTmpLoop_named hparse hrest htype hzero hparse' hrest'
                (hnil.parse_nil h) List.not_mem_nil, makeTmpLoop_end h (hnil.drop_nil _),
                argSteps_cut]
              rfl
  | case4 x value tokens ih =>
      simp only [List.length_cons] at hn
      obtain ⟨n, rfl⟩ := Nat.exists_eq_add_of_le' (Nat.le_trans (Nat.le_add_left 1 _) hn)
      cases ht with
      | cons hparse hrest htype hzero ht =>
          cases ht with
          | cons hparse' hrest' htype' hzero' ht =>
              cases ht with
              | cons hparse'' hrest'' htype'' hzero'' ht =>
                  rw [makeTmpLoop_named hparse hrest htype hzero hparse' hrest' hparse'' hzero'',
                    hrest'', argSteps_named]
                  exact ih ht (by omega) argNum (t.put lib (x, value))
  | case5 x y tokens hy ih =>
      rw [List.length_cons] at hn
      obtain ⟨n, rfl⟩ := Nat.exists_eq_add_of_le' (Nat.le_trans (Nat.le_add_left 1 _) hn)
      cases ht with
      | cons hparse hrest htype hzero ht =>
          have hloop := ih ht (Nat.le_of_succ_le_succ hn) (argNum + 1)
            (t.put lib (argName argNum, x))
          cases ht with
          | cons hparse' hrest' htype' hzero' ht =>
              rw [makeTmpLoop_numbered hparse hrest htype hzero hparse' hzero' hy,
                argSteps_numbered hy]
              exact hloop

end

/-! ## What the arguments say -/

def TextArgument.meant : TextArgument → ArgStep
  | .bare s => .numbered s.text
  | .assigned name value => .named name.text value.text

def variablesOf (text : Bytes) (steps : List ArgStep) : List (Bytes × Bytes) :=
  (cstr "ARGS", text) :: (cstr "NUM_ARG", decimal (numberedTexts steps).length) ::
    (namedValues steps ++ numberedFrom 0 (numberedTexts steps))

def ArgumentList.variables (l : ArgumentList) : List (Bytes × Bytes) :=
  variablesOf l.text (l.arguments.map TextArgument.meant)

theorem argName_injective : Function.Injective argName := fun _ _ h =>
  decimal_injective (List.append_cancel_left h)

theorem argName_ne (n : ℕ) : argName n ≠ cstr "ARGS" ∧ argName n ≠ cstr "NUM_ARG" := by
  constructor
  · intro h
    have hdecimal : decimal n = [chr 'S'] := @List.append_cancel_left _ (cstr "ARG") _ _ h
    have hdigit : IsDigit (chr 'S') :=
      isDigit_of_mem_decimal (hdecimal ▸ List.mem_singleton_self _)
    exact absurd hdigit (by decide)
  · intro h
    exact absurd (List.cons.inj h).1 (by decide)

theorem numberedFrom_names (argNum : ℕ) (texts : List Bytes) :
    (numberedFrom argNum texts).map (·.1) =
      (List.range' argNum texts.length).map argName := by
  rw [numberedFrom, List.map_map, ← List.zipIdx_map_snd, List.map_map]
  rfl

theorem mem_numberedFrom {texts : List Bytes} {n : ℕ} {x : Bytes} :
    (argName n, x) ∈ numberedFrom 0 texts ↔ texts[n]? = some x := by
  rw [numberedFrom, List.mem_map]
  constructor
  · rintro ⟨⟨y, i⟩, hmem, heq⟩
    obtain ⟨hname, rfl⟩ := Prod.mk.inj heq
    obtain rfl : i = n := argName_injective hname
    simpa using List.mk_mem_zipIdx_iff_getElem?.1 hmem
  · intro hget
    exact ⟨(x, n), List.mk_mem_zipIdx_iff_getElem?.2 (by simpa using hget), rfl⟩

/-- The variables have different names where the names of values are different and free. -/
theorem nodup_variablesOf (text : Bytes) {steps : List ArgStep}
    (hnodup : ((namedValues steps).map (·.1)).Nodup)
    (hfree : ∀ p ∈ namedValues steps, FreeName p.1) :
    ((variablesOf text steps).map (·.1)).Nodup := by
  simp only [variablesOf, List.map_cons, List.map_append, numberedFrom_names]
  have hnumbered : ((List.range' 0 (numberedTexts steps).length).map argName).Nodup :=
    List.Nodup.map argName_injective List.nodup_range'
  have hapart : ∀ x ∈ (namedValues steps).map (·.1),
      ∀ y ∈ (List.range' 0 (numberedTexts steps).length).map argName, x ≠ y := by
    intro x hx y hy
    obtain ⟨p, hp, rfl⟩ := List.mem_map.1 hx
    obtain ⟨n, -, rfl⟩ := List.mem_map.1 hy
    exact (hfree p hp).2.2 n
  have hnot : ∀ name, (∀ p ∈ namedValues steps, p.1 ≠ name) → (∀ n, argName n ≠ name) →
      name ∉ (namedValues steps).map (·.1) ++
        (List.range' 0 (numberedTexts steps).length).map argName := by
    intro name hvalues hnumbers hmem
    rcases List.mem_append.1 hmem with hmem | hmem
    · obtain ⟨p, hp, heq⟩ := List.mem_map.1 hmem
      exact hvalues p hp heq
    · obtain ⟨n, -, heq⟩ := List.mem_map.1 hmem
      exact hnumbers n heq
  refine List.nodup_cons.2 ⟨fun hmem => ?_, List.nodup_cons.2 ⟨?_, ?_⟩⟩
  · rcases List.mem_cons.1 hmem with heq | hmem
    · exact absurd heq (by decide)
    · exact hnot _ (fun p hp => (hfree p hp).1) (fun n => (argName_ne n).1) hmem
  · exact hnot _ (fun p hp => (hfree p hp).2.1) fun n => (argName_ne n).2
  · exact List.nodup_append.2 ⟨hnodup, hnumbered, hapart⟩

theorem puts_perm (text : Bytes) (steps : List ArgStep) :
    ((cstr "ARGS", text) :: stepPuts 0 steps).Perm (variablesOf text steps) := by
  have hperm := (stepPuts_perm steps 0).cons (cstr "ARGS", text)
  rwa [Nat.zero_add] at hperm

section

variable {l : ArgumentList}

theorem ArgumentList.named_names :
    (namedValues (l.arguments.map TextArgument.meant)).map (·.1) =
      l.args.filterMap fun a => a.2.name? := by
  rw [namedValues, ArgumentList.arguments, List.map_map, List.filterMap_map, List.map_filterMap]
  refine List.filterMap_congr fun a _ => ?_
  obtain ⟨blanks, a⟩ := a
  cases a <;> rfl

/-- The names of values are names. -/
theorem exists_argumentName {args : List TextArgument} {p : Bytes × Bytes}
    (hp : p ∈ namedValues (args.map TextArgument.meant)) :
    ∃ name : ArgumentName, p.1 = name.text := by
  obtain ⟨step, hstep, hnamed⟩ := List.mem_filterMap.1 hp
  obtain ⟨a, -, rfl⟩ := List.mem_map.1 hstep
  cases a with
  | bare s => cases hnamed
  | assigned name value =>
      cases hnamed
      exact ⟨name, rfl⟩

theorem ArgumentList.free_meant (l : ArgumentList) :
    ∀ p ∈ namedValues (l.arguments.map TextArgument.meant), FreeName p.1 := by
  intro p hp
  obtain ⟨name, hname⟩ := exists_argumentName hp
  rw [hname]
  exact name.free

theorem ArgumentList.nodup_variables (l : ArgumentList) : (l.variables.map (·.1)).Nodup := by
  refine nodup_variablesOf _ ?_ l.free_meant
  rw [ArgumentList.named_names]
  exact l.distinct

end

end ScOpen
