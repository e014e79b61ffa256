import ScOpen.ScriptStatements
import ScOpen.SubstrFunction
import ScOpen.VariableKeys

/-!
# The labels of the programs

When a source has been read, one pass over its tokens puts each label into the store of the
variables, under the program it stands in. A program is what stands between `BEGIN` and `END`;
everything else belongs to the default program. The labels are found again by the program that is
the current one when a `goto` runs.
-/

namespace ScOpen

def indexText (i : ℕ) : Bytes := intText (Expression.int32 i)

theorem scanUnsigned_indexText {i : ℕ} (hi : i < 2 ^ 32) :
    Expression.scanUnsignedOrZero (indexText i) = i := by
  rw [indexText, Expression.scanUnsigned_of_denotes (Expression.denotes_intText _)]
  have hrange := Expression.int32_inInt i
  have hmod := Expression.int32_emod i
  have hnum : ¬2 ^ 64 ≤ (Expression.int32 i).natAbs := by
    unfold Expression.InInt at hrange
    omega
  rw [Expression.asUnsigned, if_neg hnum]
  split <;> omega

/-! ## `make_labels()` -/

/-- The program that a `BEGIN` begins with this token behind it; none inside of another program. -/
def programBegun (type : TokenType) (text program : Bytes) : Option Bytes :=
  if type = .endOfLine then some ScriptLibrary.undefinedProgram
  else if program = defaultProgram then some (cString text) else none

namespace ScriptLibrary

variable (L : ScriptLibrary)

def putProgram (i : ℕ) (program : Bytes) (vars : ScriptState) : Option ScriptState :=
  L.put .sc i (cstr "BEGIN") (indexText i) 0
    (L.put .sc i [] (cstr "DEFINED") 0 (some { vars with program := program }))

/-- The loop of `make_labels()`: its status and the variables. -/
def makeLabelsLoop : ℕ → List Token → ScriptState → ℕ × Option ScriptState
  | _, [], vars => (0, some vars)
  | i, t :: ts, vars =>
      if t.type = .nullToken then (0, some vars)
      else if t.type = .begin_ then
        match ts with
        | [] =>
            match programBegun .nullToken [] vars.program with
            | none => (1, some vars)
            | some program => (0, L.putProgram (i + 1) program vars)
        | u :: us =>
            match programBegun u.type (L.readText (i + 2) u (some vars)) vars.program with
            | none => (1, some vars)
            | some program =>
                match L.putProgram (i + 2) program vars with
                | none => (0, none)
                | some vars => makeLabelsLoop (i + 2) us vars
      else if t.type = .end_ then makeLabelsLoop (i + 1) ts { vars with program := defaultProgram }
      else if t.Labels then
        match ts with
        | [] => (1, some vars)
        | u :: us =>
            if u.type = .identifier then
              match L.put .label (i + 2) u.text (indexText (i + 2)) 0 (some vars) with
              | none => (0, none)
              | some vars => makeLabelsLoop (i + 2) us vars
            else (1, some vars)
      else makeLabelsLoop (i + 1) ts vars

/-- `make_labels()`; there are no variables once the process has ended. -/
def makeLabels (tokens : List Token) (vars : ScriptState) : ℕ × Option ScriptState :=
  let (iret, user) := L.makeLabelsLoop 0 tokens { vars with program := defaultProgram }
  (iret, user.map fun vars => { vars with program := defaultProgram })

end ScriptLibrary

/-! ## The places of the labels -/

structure LabelPlace where
  program : Bytes
  name : Bytes
  idx : ℕ

def LabelPlace.key (p : LabelPlace) : Bytes := programKey .label p.program p.name

def Token.program (t : Token) : Bytes :=
  if t.type = .endOfLine then ScriptLibrary.undefinedProgram else cString t.text

def labelPlaces : ℕ → Bytes → List Token → List LabelPlace
  | _, _, [] => []
  | i, program, t :: ts =>
      if t.type = .begin_ then
        match ts with
        | [] => []
        | u :: us => labelPlaces (i + 2) u.program us
      else if t.type = .end_ then labelPlaces (i + 1) defaultProgram ts
      else if t.Labels then
        match ts with
        | [] => []
        | u :: us => ⟨program, cString u.text, i + 2⟩ :: labelPlaces (i + 2) program us
      else labelPlaces (i + 1) program ts

/-- A name of a program that is not taken for that of a label in a program. -/
def ProgramName (program : Bytes) : Prop := chr '.' ∉ program

/-- What is in front of the numbers of the variables that `gosub` and the loops put. -/
def numberedWords : List Bytes :=
  [cstr "RETURN.", cstr "WHILE.", cstr "FOR.", cstr "TO.", cstr "STEP."]

/-- The names of the interpreter's own entries, which have the prefix of the labels: those that it
puts for programs, calls and loops, and whatever the preprocessor has defined. -/
structure OwnNames where
  Own : Bytes → Prop
  empty : Own []
  begin_ : Own (cstr "BEGIN")
  numbered : ∀ word ∈ numberedWords, ∀ n, Own (word ++ indexText n)
  notMem : ∀ name, Own name → chr ')' ∉ name

/-- A name of a label that stands apart from what is in front of it in a full name, and is none of
the interpreter's. -/
structure LabelName (names : OwnNames) (name : Bytes) : Prop where
  notMem : chr ')' ∉ name
  notOwn : ¬ names.Own name

/-- From a place in a program on, no program begins inside of another one, and what programs and
labels are called are names. -/
inductive Sectioned (names : OwnNames) : Bytes → List Token → Prop where
  | nil (program : Bytes) : Sectioned names program []
  | begin_ {program : Bytes} {t u : Token} {us : List Token} (ht : t.type = .begin_)
      (hu : u.type ≠ .variable_) (hlabels : ¬ u.Labels)
      (hplace : u.type = .endOfLine ∨ program = defaultProgram) (hname : ProgramName u.program)
      (h : Sectioned names u.program us) : Sectioned names program (t :: u :: us)
  | end_ {program : Bytes} {t : Token} {ts : List Token} (ht : t.type = .end_)
      (h : Sectioned names defaultProgram ts) : Sectioned names program (t :: ts)
  | label {program : Bytes} {t u : Token} {us : List Token} (ht : t.Labels)
      (hu : u.type = .identifier) (hname : LabelName names (cString u.text))
      (h : Sectioned names program us) : Sectioned names program (t :: u :: us)
  | other {program : Bytes} {t : Token} {ts : List Token} (hnull : t.type ≠ .nullToken)
      (hbegin : t.type ≠ .begin_) (hend : t.type ≠ .end_) (hlabels : ¬ t.Labels)
      (h : Sectioned names program ts) : Sectioned names program (t :: ts)

def LabelsDistinct (places : List LabelPlace) : Prop :=
  (places.map fun p => (p.program, p.name)).Nodup

/-- The index behind the label that a `goto` in the program means: one of the program, or else one
of the default program. -/
def labelAt (places : List LabelPlace) (program name : Bytes) : Option ℕ :=
  ((places.find? fun p => p.program = program ∧ p.name = name).or
    (places.find? fun p => p.program = defaultProgram ∧ p.name = name)).map LabelPlace.idx

/-! ## Full names of labels -/

theorem append_sep_inj_right {c : UInt8} {a b n m : Bytes} (hn : c ∉ n) (hm : c ∉ m)
    (h : a ++ c :: n = b ++ c :: m) : a = b ∧ n = m := by
  have hreverse := congrArg List.reverse h
  simp only [List.reverse_append, List.reverse_cons, List.append_assoc, List.singleton_append]
    at hreverse
  obtain ⟨hnm, hab⟩ := Slot.append_sep_inj (fun hmem => hn (List.mem_reverse.1 hmem))
    (fun hmem => hm (List.mem_reverse.1 hmem)) hreverse
  exact ⟨List.reverse_injective hab, List.reverse_injective hnm⟩

section

variable {program program' name name' : Bytes}

theorem programKey_label (program name : Bytes) :
    programKey .label program name = chr '#' :: chr '(' :: (program ++ chr ')' :: name) := by
  have hprefix : varPrefix .label = [chr '#'] := rfl
  rw [programKey, hprefix, List.append_assoc, List.append_assoc, List.append_assoc]
  rfl

theorem programKey_inj (h : chr ')' ∉ name) (h' : chr ')' ∉ name')
    (heq : programKey .label program name = programKey .label program' name') :
    program = program' ∧ name = name' := by
  rw [programKey_label, programKey_label] at heq
  exact append_sep_inj_right h h' (List.cons.inj (List.cons.inj heq).2).2

/-- What belongs to a label of a program is what belongs to a program with a dot in its name. -/
theorem labelKey_label (pos : Position) (name : Bytes) :
    labelKey .label pos name = programKey .label (pos.program ++ chr '.' :: pos.label) name := by
  have hprefix : varPrefix .label = [chr '#'] := rfl
  rw [programKey_label, labelKey, hprefix]
  simp only [List.append_assoc, List.cons_append]
  rfl

end

/-! ## The store while labels are put -/

def RefsToVariables (st : Store) : Prop :=
  ∀ n v, entry st n = some v → v.type = .userRef →
    (cString v.value).head? ≠ some (chr '#') ∧
      ∀ u, entry st (cString v.value) = some u → u.type ≠ .userRef

theorem RefsToVariables.writes {st st' : Store} {n : Bytes} {v : Variable} (h : RefsToVariables st)
    (hentry : ∀ m, entry st' m = if m = n then some v else entry st m)
    (hv : v.type ≠ .userRef ∨ entry st n = some v) : RefsToVariables st' := by
  rcases hv with hv | hold
  · intro m w hw href
    rw [hentry] at hw
    split_ifs at hw with heq
    · cases hw
      exact absurd href hv
    · obtain ⟨hhead, htarget⟩ := h m w hw href
      refine ⟨hhead, fun u hu => ?_⟩
      rw [hentry] at hu
      split_ifs at hu with heq'
      · cases hu
        exact hv
      · exact htarget u hu
  · have hsame : ∀ m, entry st' m = entry st m := by
      intro m
      rw [hentry]
      split_ifs with heq
      · rw [heq, hold]
      · rfl
    intro m w hw href
    rw [hsame] at hw
    obtain ⟨hhead, htarget⟩ := h m w hw href
    refine ⟨hhead, fun u hu => ?_⟩
    rw [hsame] at hu
    exact htarget u hu

/-- The store has these labels, and beside them only variables and entries of the interpreter's
own. -/
structure Labelled (lib : StoreLibrary) (names : OwnNames) (places : List LabelPlace)
    (st : Store) : Prop where
  ordered : Ordered lib st
  refs : RefsToVariables st
  distinct : LabelsDistinct places
  named : ∀ p ∈ places, ProgramName p.program ∧ LabelName names p.name
  label : ∀ p ∈ places, ∃ v, entry st p.key = some v ∧ v.value = indexText p.idx ∧ v.type = .label
  own : ∀ n v, entry st n = some v → n.head? = some (chr '#') → (∃ p ∈ places, n = p.key) ∨
    v.type = .sc ∧ ∃ program name, names.Own name ∧ n = programKey .label program name

section

variable {lib : StoreLibrary} {names : OwnNames} {places : List LabelPlace} {st : Store}
  {program name : Bytes}

theorem labelled_nil : Labelled lib names [] [] := by
  have hnone : ∀ n v, entry [] n ≠ some v := by
    intro n v hentry
    cases hentry
  exact ⟨ordered_nil, fun n v hentry => absurd hentry (hnone n v), List.nodup_nil,
    fun _ hp => absurd hp List.not_mem_nil, fun _ hp => absurd hp List.not_mem_nil,
    fun n v hentry => absurd hentry (hnone n v)⟩

theorem putName_program (st : Store) (program name : Bytes) {type : VarTypes}
    (htype : type ≠ .userGlobal) :
    putName st ⟨program, []⟩ name type = programKey type program name := by
  by_cases hnil : st = []
  · rw [putName, if_pos hnil]
  · rw [putName, if_neg hnil, if_neg htype, if_pos rfl]

theorem putValue_indexText (i : ℕ) : putValue (indexText i) 0 = indexText i := by
  obtain ⟨d, htext, -⟩ := Expression.denotes_intText (Expression.int32 i)
  have hzero : 0 ∉ indexText i := by
    rw [indexText, ← htext]
    exact d.zero_notMem
  exact (if_pos rfl).trans (cString_eq_self hzero)

/-- An entry of the interpreter's own changes no label. -/
theorem Labelled.put_own (h : Labelled lib names places st) (program : Bytes)
    (hname : names.Own name) (value : Bytes) :
    ∃ st', variablePut lib st ⟨program, []⟩ name value 0 .sc = some st' ∧
      Labelled lib names places st' := by
  have hkey : putName st ⟨program, []⟩ name .sc = programKey .label program name :=
    putName_program st program name (by decide)
  have hother : ∀ p ∈ places, p.key ≠ programKey .label program name := by
    intro p hp heq
    obtain ⟨-, rfl⟩ := programKey_inj (h.named p hp).2.notMem (names.notMem _ hname) heq
    exact (h.named p hp).2.notOwn hname
  have hwritten : ∃ v, putEntry lib st (programKey .label program name) (putValue value 0) .sc =
      some (programKey .label program name, v) ∧ v.type = .sc := by
    cases hentry : entry st (programKey .label program name) with
    | none => exact ⟨_, putEntry_new hentry _ _, rfl⟩
    | some v =>
        have hsc : v.type = .sc := by
          rcases h.own _ v hentry (programKey_head _ _ _) with ⟨p, hp, heq⟩ | ⟨hsc, -⟩
          · exact absurd heq.symm (hother p hp)
          · exact hsc
        refine ⟨{ v with value := putValue value 0 }, ?_, hsc⟩
        rw [putEntry_old hentry, hsc]
        rfl
  obtain ⟨v, hput, htype⟩ := hwritten
  rcases variablePut_spec h.ordered ⟨program, []⟩ name value 0 .sc with
    ⟨hnone, -⟩ | ⟨n, w, st', hsome, hst', hordered, hwrites⟩
  · rw [hkey, hput] at hnone
    cases hnone
  · rw [hkey, hput] at hsome
    cases hsome
    have hrefs : v.type ≠ .userRef := by
      rw [htype]
      decide
    refine ⟨st', hst', hordered, h.refs.writes hwrites (.inl hrefs), h.distinct, h.named, ?_, ?_⟩
    · intro p hp
      rw [hwrites, if_neg (hother p hp)]
      exact h.label p hp
    · intro m u hm hhead
      rw [hwrites] at hm
      split_ifs at hm with heq
      · cases hm
        exact .inr ⟨htype, program, name, hname, heq⟩
      · exact h.own m u hm hhead

theorem labelsDistinct_concat {p : LabelPlace} :
    LabelsDistinct (places ++ [p]) ↔
      LabelsDistinct places ∧ ∀ q ∈ places, ¬(q.program = p.program ∧ q.name = p.name) := by
  rw [LabelsDistinct, List.map_append, List.nodup_append]
  constructor
  · rintro ⟨hplaces, -, hne⟩
    refine ⟨hplaces, fun q hq hsame => ?_⟩
    exact hne _ (List.mem_map_of_mem hq) _ List.mem_cons_self (Prod.ext hsame.1 hsame.2)
  · rintro ⟨hplaces, hne⟩
    refine ⟨hplaces, List.nodup_singleton _, ?_⟩
    intro x hx y hy heq
    obtain ⟨q, hq, rfl⟩ := List.mem_map.1 hx
    rw [List.map_singleton, List.mem_singleton] at hy
    rw [hy] at heq
    exact hne q hq ⟨congrArg Prod.fst heq, congrArg Prod.snd heq⟩

theorem named_value (n value : Bytes) (type : VarTypes) : (lib.named n value type).value = value :=
  rfl

theorem Labelled.put_label (h : Labelled lib names places st) (hprogram : ProgramName program)
    (hname : LabelName names name) (idx : ℕ)
    (hnew : ∀ p ∈ places, ¬(p.program = program ∧ p.name = name)) :
    ∃ st', variablePut lib st ⟨program, []⟩ name (indexText idx) 0 .label = some st' ∧
      Labelled lib names (places ++ [⟨program, name, idx⟩]) st' := by
  have hkey : putName st ⟨program, []⟩ name .label = programKey .label program name :=
    putName_program st program name (by decide)
  have hother : ∀ p ∈ places, p.key ≠ programKey .label program name :=
    fun p hp heq => hnew p hp (programKey_inj (h.named p hp).2.notMem hname.notMem heq)
  have hentry : entry st (programKey .label program name) = none := by
    cases hentry : entry st (programKey .label program name) with
    | none => rfl
    | some v =>
        rcases h.own _ v hentry (programKey_head _ _ _) with
          ⟨p, hp, heq⟩ | ⟨-, program', name', hname', heq⟩
        · exact absurd heq.symm (hother p hp)
        · obtain ⟨-, rfl⟩ := programKey_inj hname.notMem (names.notMem _ hname') heq
          exact absurd hname' hname.notOwn
  rcases variablePut_spec h.ordered ⟨program, []⟩ name (indexText idx) 0 .label with
    ⟨hnone, -⟩ | ⟨n, w, st', hsome, hst', hordered, hwrites⟩
  · rw [hkey, putEntry_new hentry] at hnone
    cases hnone
  · rw [hkey, putEntry_new hentry, putValue_indexText] at hsome
    cases hsome
    have hrefs : VarTypes.label ≠ .userRef := by decide
    refine ⟨st', hst', hordered, h.refs.writes hwrites (.inl hrefs),
      labelsDistinct_concat.2 ⟨h.distinct, hnew⟩, ?_, ?_, ?_⟩
    · intro p hp
      rcases List.mem_append.1 hp with hp | hp
      · exact h.named p hp
      · rw [List.mem_singleton.1 hp]
        exact ⟨hprogram, hname⟩
    · intro p hp
      rw [hwrites]
      rcases List.mem_append.1 hp with hp | hp
      · rw [if_neg (hother p hp)]
        exact h.label p hp
      · have hself : p.key = programKey .label program name := by
          rw [List.mem_singleton.1 hp]
          rfl
        have hidx : p.idx = idx := congrArg LabelPlace.idx (List.mem_singleton.1 hp)
        exact ⟨_, if_pos hself, (named_value _ _ _).trans (congrArg indexText hidx.symm), rfl⟩
    · intro m u hm hhead
      rw [hwrites] at hm
      split_ifs at hm with heq
      · exact .inl ⟨_, List.mem_append_right places List.mem_cons_self, heq⟩
      · rcases h.own m u hm hhead with ⟨p, hp, hm'⟩ | hown
        · exact .inl ⟨p, List.mem_append_left _ hp, hm'⟩
        · exact .inr hown

/-- The process ends where a program has a second label of the name. -/
theorem Labelled.put_label_twice (h : Labelled lib names places st) {p : LabelPlace} (hp : p ∈ places)
    (value : Bytes) : variablePut lib st ⟨p.program, []⟩ p.name value 0 .label = none := by
  obtain ⟨v, hentry, -, htype⟩ := h.label p hp
  have hkey : putName st ⟨p.program, []⟩ p.name .label = p.key :=
    putName_program st p.program p.name (by decide)
  rcases variablePut_spec h.ordered ⟨p.program, []⟩ p.name value 0 .label with
    ⟨-, hnone⟩ | ⟨n, w, st', hsome, -⟩
  · exact hnone
  · rw [hkey, putEntry_old hentry, htype] at hsome
    cases hsome

/-! ## What is found -/

theorem Labelled.entry_label (h : Labelled lib names places st) (program : Bytes)
    (hname : LabelName names name) :
    (∀ v, entry st (programKey .label program name) = some v → v.type = .label) ∧
      (entry st (programKey .label program name)).map Variable.value =
        (places.find? fun p => p.program = program ∧ p.name = name).map
          (indexText ∘ LabelPlace.idx) := by
  cases hfind : places.find? fun p => p.program = program ∧ p.name = name with
  | some p =>
      have hsame := List.find?_some hfind
      rw [decide_eq_true_eq] at hsame
      obtain ⟨rfl, rfl⟩ := hsame
      obtain ⟨v, hentry, hvalue, htype⟩ := h.label p (List.mem_of_find?_eq_some hfind)
      have hkey : entry st (programKey .label p.program p.name) = some v := hentry
      rw [hkey]
      constructor
      · intro w hw
        cases hw
        exact htype
      · rw [Option.map_some, Option.map_some, hvalue, Function.comp_apply]
  | none =>
      have hentry : entry st (programKey .label program name) = none := by
        cases hentry : entry st (programKey .label program name) with
        | none => rfl
        | some v =>
            rcases h.own _ v hentry (programKey_head _ _ _) with
              ⟨p, hp, heq⟩ | ⟨-, program', name', hname', heq⟩
            · have hne := List.find?_eq_none.1 hfind p hp
              rw [decide_eq_true_eq] at hne
              have hsame := programKey_inj (h.named p hp).2.notMem hname.notMem heq.symm
              exact absurd hsame hne
            · obtain ⟨-, rfl⟩ := programKey_inj hname.notMem (names.notMem _ hname') heq
              exact absurd hname' hname.notOwn
      rw [hentry]
      refine ⟨fun v hv => ?_, rfl⟩
      cases hv

/-- At any label of a program its own label is found, or else that of the default program. -/
theorem Labelled.get (h : Labelled lib names places st) (pos : Position)
    (hname : LabelName names name) :
    variableGet lib st pos name .label = (labelAt places pos.program name).map indexText := by
  obtain ⟨htype, hvalue⟩ := h.entry_label pos.program hname
  obtain ⟨htype', hvalue'⟩ := h.entry_label defaultProgram hname
  have hwithin : entry st (labelKey .label pos name) = none := by
    cases hentry : entry st (labelKey .label pos name) with
    | none => rfl
    | some v =>
        rcases h.own _ v hentry (labelKey_head _ _ _) with
          ⟨p, hp, heq⟩ | ⟨-, program', name', hname', heq⟩
        · rw [labelKey_label] at heq
          obtain ⟨hsame, -⟩ := programKey_inj hname.notMem (h.named p hp).2.notMem heq
          have hdot : chr '.' ∈ p.program :=
            hsame ▸ List.mem_append_right pos.program List.mem_cons_self
          exact absurd hdot (h.named p hp).1
        · rw [labelKey_label] at heq
          obtain ⟨-, rfl⟩ := programKey_inj hname.notMem (names.notMem _ hname') heq
          exact absurd hname' hname.notOwn
  have hresolve : resolveEntry st pos name .label =
      (entry st (programKey .label pos.program name)).or
        (entry st (programKey .label defaultProgram name)) := by
    rw [resolveEntry, hwithin, ite_self, Option.none_or]
  have hplaces : (resolveEntry st pos name .label).map Variable.value =
      (labelAt places pos.program name).map indexText := by
    rw [hresolve, Option.map_or, hvalue, hvalue', labelAt, Option.map_map, Option.map_or]
  rw [← hplaces]
  cases hfound : resolveEntry st pos name .label with
  | none => exact variableGet_none h.ordered hfound
  | some v =>
      have hlabel : v.type = .label := by
        rw [hresolve, Option.or_eq_some_iff] at hfound
        rcases hfound with hfound | ⟨-, hfound⟩
        · exact htype v hfound
        · exact htype' v hfound
      have hplain : v.type ≠ .userRef := by
        rw [hlabel]
        decide
      rw [variableGet_some h.ordered hfound, if_neg (by decide), valueOf_plain hplain]
      rfl

end

end ScOpen
