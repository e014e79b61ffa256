import ScOpen.ArrayScripts
import ScOpen.ExpressionEffects
import ScOpen.LabelJumps
import ScOpen.UserEffects

/-!
# Labels in a run

A label stays where it is while the program runs. Assignments, constants, local variables, arrays
and changes of the program write other entries; only `delete` takes the entry of a label away. So a
`goto` leads to the same place at every turn of a run.
-/

namespace ScOpen

section

variable {lib : StoreLibrary} {names : OwnNames} {places : List LabelPlace} {st : Store}
  {type : VarTypes}

/-! ## One put -/

/-- A put adds an entry, or changes one that is neither a label nor a reference, or nothing. -/
theorem putEntry_written (hrefs : RefsToVariables st) (htype : type ≠ .userRef)
    {full n value : Bytes} {v : Variable} (h : putEntry lib st full value type = some (n, v)) :
    (entry st n = none ∧ n = full ∧ v.type = type) ∨
      ∃ u, entry st n = some u ∧ v.type = u.type ∧
        (v = u ∨ u.type ≠ .userRef ∧ (u.type = .label → n.head? ≠ some (chr '#'))) := by
  cases hentry : entry st full with
  | none =>
      rw [putEntry_new hentry] at h
      cases h
      exact .inl ⟨hentry, rfl, rfl⟩
  | some w =>
      rw [putEntry_old hentry, if_neg htype] at h
      by_cases href : w.type = .userRef
      · rw [if_pos href] at h
        obtain ⟨hhead, htarget⟩ := hrefs full w hentry href
        obtain ⟨u, hu, heq⟩ := Option.map_eq_some_iff.1 h
        cases heq
        exact .inr ⟨u, hu, rfl, .inr ⟨htarget u hu, fun _ => hhead⟩⟩
      · rw [if_neg href] at h
        split_ifs at h with hdefine hlabel
        · cases h
          exact .inr ⟨v, hentry, rfl, .inl rfl⟩
        · cases h
          exact .inr ⟨w, hentry, rfl, .inr ⟨href, fun hlabel' => absurd hlabel' hlabel⟩⟩

/-- A type of what a program assigns, or of the interpreter's own entries. -/
def OwnOrUser (names : OwnNames) (type : VarTypes) (name : Bytes) : Prop :=
  type.sign = chr '(' ∨ type = .sc ∧ names.Own name

/-- The full name of an entry of the interpreter's own. -/
theorem putName_own (st : Store) (pos : Position) (name : Bytes) :
    ∃ program, putName st pos name .sc = programKey .label program name := by
  unfold putName
  split_ifs
  · exact ⟨pos.program, rfl⟩
  · exact ⟨defaultProgram, rfl⟩
  · exact ⟨pos.program, rfl⟩
  · exact ⟨_, labelKey_label pos name⟩
  · exact ⟨pos.program, rfl⟩

theorem Labelled.put (h : Labelled lib names places st) (pos : Position) (name value : Bytes)
    (length : ℕ) (hne : type ≠ .userRef) (htype : OwnOrUser names type name) {st' : Store}
    (hput : variablePut lib st pos name value length type = some st') :
    Labelled lib names places st' := by
  rcases variablePut_spec h.ordered pos name value length type with
    ⟨-, hnone⟩ | ⟨n, v, st'', hwritten, hput', hordered, hwrites⟩
  · rw [hput] at hnone
    cases hnone
  rw [hput] at hput'
  cases hput'
  have hcases := putEntry_written h.refs hne hwritten
  have hrefs : v.type ≠ .userRef ∨ entry st n = some v := by
    rcases hcases with ⟨-, -, hv⟩ | ⟨u, hu, hv, rfl | ⟨hu', -⟩⟩
    · exact .inl (hv ▸ hne)
    · exact .inr hu
    · exact .inl (hv ▸ hu')
  refine ⟨hordered, h.refs.writes hwrites hrefs, h.distinct, h.named, ?_, ?_⟩
  · intro p hp
    obtain ⟨w, hw, hvalue, hlabel⟩ := h.label p hp
    rw [hwrites]
    split_ifs with heq
    · rw [heq] at hw
      rcases hcases with ⟨hnone, -, -⟩ | ⟨u, hu, -, rfl | ⟨-, hhead⟩⟩
      · rw [hw] at hnone
        cases hnone
      · rw [hw] at hu
        cases hu
        exact ⟨v, rfl, hvalue, hlabel⟩
      · rw [hw] at hu
        cases hu
        exact absurd (heq ▸ programKey_head _ _ _) (hhead hlabel)
    · exact ⟨w, hw, hvalue, hlabel⟩
  · intro m w hw hhead
    rw [hwrites] at hw
    split_ifs at hw with heq
    · cases hw
      subst heq
      rcases hcases with ⟨-, hfull, hv⟩ | ⟨u, hu, hv, -⟩
      · rcases htype with hsign | ⟨rfl, hname⟩
        · rw [hfull, putName_head, hsign] at hhead
          exact absurd hhead (by decide)
        · obtain ⟨program, hkey⟩ := putName_own st pos name
          exact .inr ⟨hv, program, name, hname, hfull.trans hkey⟩
      · rw [hv]
        exact h.own m u hu hhead
    · exact h.own m w hw hhead

end

/-! ## The commands -/

section

variable {L : ScriptLibrary} {names : OwnNames} {places : List LabelPlace}

/-- The labels are in the store, as long as there is one. -/
def KeepsLabels (L : ScriptLibrary) (names : OwnNames) (places : List LabelPlace)
    (user : Option ScriptState) : Prop :=
  ∀ vars, user = some vars → Labelled L.store names places vars.store

/-- The functions that expressions call, the arguments of a `gosub` and the other commands leave the
labels where they are. -/
structure ScriptLibrary.LeavesLabels (L : ScriptLibrary) (names : OwnNames)
    (places : List LabelPlace) : Prop where
  function : ∀ place i a b c user, KeepsLabels L names places user →
    KeepsLabels L names places (L.operations.function place i a b c user).user
  takeArguments : ∀ queue tokens i user, KeepsLabels L names places user →
    KeepsLabels L names places (L.takeArguments queue tokens i user).2.2
  command : ∀ type p, KeepsLabels L names places p.env.user →
    KeepsLabels L names places (L.command type p).program.env.user

theorem KeepsLabels.put {user : Option ScriptState} (h : KeepsLabels L names places user)
    {type : VarTypes} (hne : type ≠ .userRef) (i : ℕ) (name value : Bytes) (length : ℕ)
    (htype : OwnOrUser names type (cString name)) :
    KeepsLabels L names places (L.put type i name value length user) := by
  intro vars' hvars'
  rw [ScriptLibrary.put] at hvars'
  obtain ⟨vars, rfl, hput⟩ := Option.bind_eq_some_iff.1 hvars'
  obtain ⟨st, hst, rfl⟩ := Option.map_eq_some_iff.1 hput
  exact (h vars rfl).put _ _ _ _ hne htype hst

theorem KeepsLabels.putUser {user : Option ScriptState} (h : KeepsLabels L names places user)
    {type : VarTypes} (hne : type ≠ .userRef) (hsign : type.sign = chr '(') (i : ℕ)
    (name value : Bytes) (length : ℕ) :
    KeepsLabels L names places (L.put type i name value length user) :=
  h.put hne i name value length (.inl hsign)

theorem KeepsLabels.setProgram {user : Option ScriptState} (h : KeepsLabels L names places user)
    (name : Bytes) : KeepsLabels L names places (ScriptLibrary.setProgram name user) := by
  intro vars' hvars'
  obtain ⟨vars, rfl, rfl⟩ := Option.map_eq_some_iff.1 hvars'
  exact h vars rfl

variable {p : Running (Option ScriptState)} {type : VarTypes}

theorem ScriptLibrary.LeavesLabels.expression (h : L.LeavesLabels names places) (tokens : List Token)
    (i : ℕ) (user : Option ScriptState) (huser : KeepsLabels L names places user) :
    KeepsLabels L names places (L.expression tokens i user).user := by
  have hkeeps := @Expression.expression_keeps _ (KeepsLabels L names places) L.operations
    ⟨L.exprTokens user i (tokens.drop i), [], [], user⟩ h.function L.fuel huser
  unfold ScriptLibrary.expression
  dsimp only
  split
  · rename_i iret s hrun
    exact hkeeps _ hrun
  · intro vars hvars
    cases hvars

theorem ScriptLibrary.LeavesLabels.base (h : L.LeavesLabels names places) :
    L.base.Keeps (fun _ => True) (KeepsLabels L names places) where
  expression := h.expression
  variablePut i name value user hp := hp.putUser (by decide) (by decide) i name value value.length
  takeArguments := h.takeArguments
  command type p _ hp := h.command type p hp

theorem assignValue_keeps (h : L.LeavesLabels names places) (hne : type ≠ .userRef)
    (hsign : type.sign = chr '(') (name : Bytes) (hp : KeepsLabels L names places p.env.user) :
    KeepsLabels L names places (L.assignValue type name p).program.env.user := by
  have heval := evaluate_keeps h.base hp
  simp only [ScriptLibrary.assignValue]
  split
  · exact heval
  · exact heval.putUser hne hsign _ _ _ _

theorem assign_keeps (h : L.LeavesLabels names places) (hne : type ≠ .userRef)
    (hsign : type.sign = chr '(') (hp : KeepsLabels L names places p.env.user) :
    KeepsLabels L names places (L.assign type p).program.env.user := by
  have hname := getToken_keeps L.base hp
  have hassign := getToken_keeps L.base hname
  simp only [ScriptLibrary.assign]
  split
  · split
    · exact assignValue_keeps h hne hsign _ hassign
    · exact hassign
  · exact hname

theorem cmdLocalVar_keeps (h : L.LeavesLabels names places) (hp : KeepsLabels L names places p.env.user) :
    KeepsLabels L names places (L.cmdLocalVar p).program.env.user := by
  have hname := getToken_keeps L.base hp
  have hassign := getToken_keeps L.base hname
  simp only [ScriptLibrary.cmdLocalVar]
  split
  · split
    · exact assignValue_keeps h (by decide) (by decide) _ hassign
    · exact hassign.putUser (by decide) (by decide) _ _ _ _
  · exact hname

theorem arrayLoop_keeps (h : L.LeavesLabels names places) (name : Bytes) (n index : ℕ)
    (hp : KeepsLabels L names places p.env.user) :
    KeepsLabels L names places (L.arrayLoop name n index p).2.2.env.user := by
  induction n generalizing index p with
  | zero => exact hp
  | succ n ih =>
      have heval := evaluate_keeps h.base hp
      simp only [ScriptLibrary.arrayLoop]
      split
      · exact heval
      · have hput := @KeepsLabels.putUser L names places _ heval .userDefine (by decide) (by decide)
          (evaluate L.base p).2.2.programIdx (ScriptLibrary.elementName name (index + 1))
          (evaluate L.base p).2.1 (evaluate L.base p).2.1.length
        split
        · exact ih _ (getToken_keeps L.base hput)
        · exact getToken_keeps L.base hput

theorem cmdDefineArray_keeps (h : L.LeavesLabels names places) (hp : KeepsLabels L names places p.env.user) :
    KeepsLabels L names places (L.cmdDefineArray p).program.env.user := by
  have hname := getToken_keeps L.base hp
  have hassign := getToken_keeps L.base hname
  simp only [ScriptLibrary.cmdDefineArray]
  split
  · split
    · exact (arrayLoop_keeps h _ _ _ hassign).putUser (by decide) (by decide) _ _ _ _
    · exact hassign
  · exact hname

theorem cmdSetProgram_keeps (hp : KeepsLabels L names places p.env.user) :
    KeepsLabels L names places (L.cmdSetProgram p).program.env.user := by
  have hown : OwnOrUser names .sc (cString []) := .inr ⟨rfl, names.empty⟩
  have hname := getToken_keeps L.base hp
  simp only [ScriptLibrary.cmdSetProgram]
  split
  · exact (((hname.put (by decide) _ _ _ _ hown).setProgram _).setProgram _).put
      (by decide) _ _ _ _ hown
  · exact ((hname.put (by decide) _ _ _ _ hown).setProgram _).put (by decide) _ _ _ _ hown

/-- Every command but `delete` keeps the labels. -/
theorem ScriptLibrary.LeavesLabels.language (h : L.LeavesLabels names places) :
    L.language.Keeps (· ≠ .delete_) (KeepsLabels L names places) where
  expression := h.expression
  variablePut := h.base.variablePut
  takeArguments := h.takeArguments
  command type p hallowed hp := by
    simp only [ScriptLibrary.language]
    split
    · exact assign_keeps h (by decide) (by decide) hp
    · exact assign_keeps h (by decide) (by decide) hp
    · exact assign_keeps h (by decide) (by decide) hp
    · exact cmdDefineArray_keeps h hp
    · exact cmdLocalVar_keeps h hp
    · exact absurd rfl hallowed
    · exact cmdSetProgram_keeps hp
    · exact h.command _ _ hp

/-- The labels of a source are put unless a program has two of one name. At every turn of every run
from there on a `goto` leads behind the label of the program that is the current one. -/
theorem gotos_lead {L running : ScriptLibrary} {names : OwnNames} {tokens : List Token}
    {vars : ScriptState}
    (hlabels : L.labels = []) (hstore : running.store = L.store)
    (hsize : tokens.length < 2 ^ 32) (hsections : Sectioned names defaultProgram tokens)
    (hstart : Labelled L.store names [] vars.store)
    (hleaves : running.LeavesLabels names (labelPlaces 0 defaultProgram tokens)) :
    (∀ idx name, (∃ p ∈ labelPlaces 0 defaultProgram tokens, p.idx = idx ∧ p.name = name) ↔
      LabelEnds tokens idx name) ∧
    (¬ LabelsDistinct (labelPlaces 0 defaultProgram tokens) →
      L.makeLabels tokens vars = (0, none)) ∧
    (LabelsDistinct (labelPlaces 0 defaultProgram tokens) → ∃ vars',
      L.makeLabels tokens vars = (0, some vars') ∧ vars'.program = defaultProgram ∧
      ∀ turns i saved control ds after q,
        executeTurns running.language turns ⟨tokens, i, saved, ⟨control, some vars'⟩⟩ =
          (ds, after, q) →
        (∀ d ∈ ds, d.2 ≠ .delete_) →
        ∀ name q' state,
          evaluate running.language (getToken running.language q).2.2 = (0, name, q') →
          q'.env.user = some state → LabelName names (cString name) →
          cmdGoto running.language (getToken running.language q).2.2 =
            (labelAt (labelPlaces 0 defaultProgram tokens) state.program (cString name)).elim
              (1, q') fun idx => (0, setProgramTokenIdx idx q')) := by
  have hends : ∀ idx name, (∃ p ∈ labelPlaces 0 defaultProgram tokens, p.idx = idx ∧
      p.name = name) ↔ LabelEnds tokens idx name := by
    intro idx name
    rw [mem_labelPlaces hsections]
    simp only [Nat.zero_add, exists_eq_left']
  have hroom : ∀ p ∈ labelPlaces 0 defaultProgram tokens, p.idx < 2 ^ 32 := by
    intro p hp
    obtain ⟨j, t, u, hidx, -, -, hu, -, -⟩ := (hends p.idx p.name).1 ⟨p, hp, rfl, rfl⟩
    obtain ⟨hlt, -⟩ := List.getElem?_eq_some_iff.1 hu
    omega
  have hputs := ScriptLibrary.makeLabels_puts hlabels hsections hstart
  refine ⟨hends, hputs.ends, fun hdistinct => ?_⟩
  obtain ⟨vars', hrun, hlabelled⟩ := hputs.puts hdistinct
  have hdefault : vars'.program = defaultProgram := by
    obtain ⟨_, -, rfl⟩ := Option.map_eq_some_iff.1 (congrArg Prod.snd hrun)
    rfl
  refine ⟨vars', hrun, hdefault, ?_⟩
  intro turns i saved control ds after q hturns hallowed name q' state heval huser hname
  have hbefore : KeepsLabels running names (labelPlaces 0 defaultProgram tokens) (some vars') := by
    intro state hstate
    cases hstate
    rw [hstore]
    exact hlabelled
  have hreached := executeTurns_keeps hleaves.language hbefore hturns hallowed
  have hevaluated := evaluate_keeps hleaves.language (getToken_keeps running.language hreached)
  rw [heval] at hevaluated
  exact (hevaluated state huser).goto hroom heval huser hname

end

theorem label_hasText : TokenType.label.hasText = false := rfl

theorem begin_hasText : TokenType.begin_.hasText = false := rfl

theorem end_hasText : TokenType.end_.hasText = false := rfl

theorem goto_hasText : TokenType.goto_.hasText = false := rfl

theorem closeParen_notMem_indexText (n : ℕ) : chr ')' ∉ indexText n := by
  obtain ⟨d, htext, -⟩ := Expression.denotes_intText (Expression.int32 n)
  rw [indexText, ← htext]
  intro hmem
  rcases d.mem_text hmem with hsign | hdigit
  · exact absurd hsign (by decide)
  · exact absurd hdigit (by decide)

/-- Nothing has been defined by the preprocessor. -/
def plainNames : OwnNames where
  Own name := name = [] ∨ name = cstr "BEGIN" ∨
    ∃ word ∈ numberedWords, ∃ n, name = word ++ indexText n
  empty := .inl rfl
  begin_ := .inr (.inl rfl)
  numbered word hword n := .inr (.inr ⟨word, hword, n, rfl⟩)
  notMem := by
    rintro name (rfl | rfl | ⟨word, hword, n, rfl⟩) hmem
    · cases hmem
    · exact absurd hmem (by decide)
    · have hwords : ∀ word ∈ numberedWords, chr ')' ∉ word := by decide
      rcases List.mem_append.1 hmem with hmem | hmem
      · exact hwords word hword hmem
      · exact closeParen_notMem_indexText n hmem

theorem labelName_a : LabelName plainNames (cString (cstr "a")) := by
  refine ⟨by decide, ?_⟩
  rintro (heq | heq | ⟨word, hword, n, heq⟩)
  · cases heq
  · exact absurd heq (by decide)
  · have hwords : ∀ word ∈ numberedWords, 1 < word.length := by decide
    have hlong := hwords word hword
    have hlength : (cString (cstr "a")).length = 1 := rfl
    rw [heq, List.length_append] at hlength
    omega

def twoLabels : List Token :=
  [mark .label label_hasText, word (cstr "a"), mark .endOfLine endOfLine_hasText,
    mark .begin_ begin_hasText, word (cstr "p"), mark .label label_hasText, word (cstr "a"),
    mark .end_ end_hasText, mark .goto_ goto_hasText, word (cstr "a")]

theorem twoLabels_sectioned : Sectioned plainNames defaultProgram twoLabels := by
  have hnot : ∀ {t : Token}, t.type = .endOfLine ∨ t.type = .goto_ ∨ t.type = .identifier →
      ¬ t.Labels := by
    rintro t (h | h | h) <;> rw [Token.Labels, h] <;> decide
  have hother : ∀ {program : Bytes} {t : Token} {ts : List Token},
      t.type = .endOfLine ∨ t.type = .goto_ ∨ t.type = .identifier → Sectioned plainNames program ts →
        Sectioned plainNames program (t :: ts) := by
    intro program t ts htype h
    refine .other ?_ ?_ ?_ (hnot htype) h
    all_goals rcases htype with h | h | h <;> rw [h] <;> decide
  have hgoto : Sectioned plainNames defaultProgram [mark .goto_ goto_hasText, word (cstr "a")] :=
    hother (.inr (.inl rfl)) (hother (.inr (.inr rfl)) (.nil _))
  have hp : Sectioned plainNames (word (cstr "p")).program
      (mark .label label_hasText :: word (cstr "a") :: mark .end_ end_hasText ::
        [mark .goto_ goto_hasText, word (cstr "a")]) :=
    .label (.inr rfl) rfl labelName_a (.end_ rfl hgoto)
  have hbegin : Sectioned plainNames defaultProgram (mark .begin_ begin_hasText :: word (cstr "p") ::
      mark .label label_hasText :: word (cstr "a") :: mark .end_ end_hasText ::
        [mark .goto_ goto_hasText, word (cstr "a")]) := by
    apply Sectioned.begin_ rfl _ (hnot (.inr (.inr rfl))) (.inr rfl) _ hp
    · decide
    · unfold ProgramName
      decide
  exact .label (.inr rfl) rfl labelName_a (hother (.inl rfl) hbegin)

/-- In the default program the `goto` leads behind the first label. -/
theorem gotos_lead_two_programs :
    ∃ vars' q', quietScript.makeLabels twoLabels ⟨[], defaultProgram⟩ = (0, some vars') ∧
      cmdGoto quietScript.language ⟨twoLabels, 9, 8, ⟨zeroControl, some vars'⟩⟩ = (0, q') ∧
      q'.programIdx = 2 := by
  have hleaves : quietScript.LeavesLabels plainNames (labelPlaces 0 defaultProgram twoLabels) :=
    ⟨fun _ _ _ _ _ _ h => h, fun _ _ _ _ h => h, fun _ _ h => h⟩
  obtain ⟨-, -, hleads⟩ := @gotos_lead quietScript quietScript plainNames twoLabels ⟨[], defaultProgram⟩ rfl
    rfl (by decide) twoLabels_sectioned labelled_nil hleaves
  have hdistinct : LabelsDistinct (labelPlaces 0 defaultProgram twoLabels) := by
    unfold LabelsDistinct
    decide
  obtain ⟨vars', hrun, hdefault, hall⟩ := hleads hdistinct
  have heval : evaluate quietScript.language ⟨twoLabels, 9, 8, ⟨zeroControl, some vars'⟩⟩ =
      (0, cstr "a", ⟨twoLabels, 10, 10, ⟨zeroControl, some vars'⟩⟩) := rfl
  have hgoto := hall 0 8 0 zeroControl [] .go ⟨twoLabels, 8, 0, ⟨zeroControl, some vars'⟩⟩ rfl
    (fun d hd => absurd hd List.not_mem_nil) _ _ vars' heval rfl labelName_a
  have hat : labelAt (labelPlaces 0 defaultProgram twoLabels) vars'.program
      (cString (cstr "a")) = some 2 := by
    rw [hdefault]
    decide
  rw [hat] at hgoto
  exact ⟨vars', _, hrun, hgoto, rfl⟩

end ScOpen
