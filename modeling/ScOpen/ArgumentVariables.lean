import ScOpen.TmpArguments

/-!
# Which arguments become variables

Where a string that is a `=` comes behind another argument without a name, the loop takes both with
the token behind them for a name and its value. It then numbers fewer arguments than there are, or
the name's own `=` is numbered in the place of the first of the two.
-/

namespace ScOpen

def argumentTokens (args : List TextArgument) : List Bytes := args.flatMap TextArgument.tokens

/-- No string that is a `=` comes directly behind an argument without a name. -/
def EqualsApart (args : List TextArgument) : Prop :=
  ∀ s e : Quoted, [TextArgument.bare s, .bare e] <:+: args → e.text ≠ cstr "="

section

variable {a : TextArgument} {args : List TextArgument}

theorem EqualsApart.tail (h : EqualsApart (a :: args)) : EqualsApart args :=
  fun s e hinside => h s e (List.infix_cons hinside)

theorem ArgumentName.text_ne_equals (name : ArgumentName) : name.text ≠ cstr "=" := by
  intro h
  have hchar := name.all (chr '=') (by rw [h]; decide)
  exact absurd hchar (by decide)

theorem argSteps_assigned (name : ArgumentName) (value : Quoted) (args : List TextArgument) :
    argSteps (argumentTokens (.assigned name value :: args)) =
      .named name.text value.text :: argSteps (argumentTokens args) := argSteps_named

/-- An argument without a name is numbered where no string that is a `=` comes behind it. -/
theorem argSteps_bare (s : Quoted)
    (h : ∀ e rest, args = .bare e :: rest → e.text ≠ cstr "=") :
    argSteps (argumentTokens (.bare s :: args)) =
      .numbered s.text :: argSteps (argumentTokens args) := by
  cases args with
  | nil => rfl
  | cons b args =>
      cases b with
      | bare e => exact argSteps_numbered (h e args rfl)
      | assigned name value => exact argSteps_numbered name.text_ne_equals

/-- Elsewhere the loop takes the tokens for what they are meant to be. -/
theorem argSteps_eq_meant (h : EqualsApart args) :
    argSteps (argumentTokens args) = args.map TextArgument.meant := by
  induction args with
  | nil => rfl
  | cons a args ih =>
      cases a with
      | assigned name value =>
          rw [argSteps_assigned, ih h.tail]
          rfl
      | bare s =>
          have hnext : ∀ e rest, args = .bare e :: rest → e.text ≠ cstr "=" := by
            rintro e rest rfl
            exact h s e ⟨[], rest, rfl⟩
          rw [argSteps_bare s hnext, ih h.tail]
          rfl

end

def bareCount (args : List TextArgument) : ℕ :=
  (numberedTexts (args.map TextArgument.meant)).length

section

variable (args : List TextArgument)

theorem bareCount_bare (s : Quoted) : bareCount (.bare s :: args) = bareCount args + 1 := rfl

theorem bareCount_assigned (name : ArgumentName) (value : Quoted) :
    bareCount (.assigned name value :: args) = bareCount args := rfl

end

def FallsShort (texts : List Bytes) (count : ℕ) : Prop :=
  texts.length ≤ count ∧ (texts.length = count → texts.head? = some (cstr "="))

theorem fallsShort_of_lt {texts : List Bytes} {count : ℕ} (h : texts.length < count) :
    FallsShort texts count := ⟨h.le, fun heq => absurd heq h.ne⟩

mutual

/-- The loop numbers no more tokens than there are arguments without a name. -/
theorem argSteps_count (args : List TextArgument) :
    (numberedTexts (argSteps (argumentTokens args))).length ≤ bareCount args := by
  match args with
  | [] => exact le_refl _
  | .assigned name value :: args =>
      rw [argSteps_assigned]
      exact argSteps_count args
  | .bare s :: args =>
      by_cases hnext : ∀ e rest, args = .bare e :: rest → e.text ≠ cstr "="
      · rw [argSteps_bare s hnext]
        exact Nat.succ_le_succ (argSteps_count args)
      · push Not at hnext
        obtain ⟨e, rest, rfl, he⟩ := hnext
        have hshort := (argSteps_equals s.text rest).1
        rw [← he] at hshort
        exact hshort
termination_by 2 * args.length

/-- Behind a string that is taken for the `=` of a name, the loop falls short of the arguments. -/
theorem argSteps_equals (x : Bytes) (args : List TextArgument) :
    FallsShort (numberedTexts (argSteps (x :: cstr "=" :: argumentTokens args)))
      (bareCount args + 2) := by
  match args with
  | [] =>
      have htokens : argSteps (x :: cstr "=" :: argumentTokens []) = [.named x []] := argSteps_cut
      rw [htokens]
      exact fallsShort_of_lt (Nat.succ_pos _)
  | .bare b :: args =>
      have htokens : argSteps (x :: cstr "=" :: argumentTokens (.bare b :: args)) =
          .named x b.text :: argSteps (argumentTokens args) := argSteps_named
      rw [htokens, bareCount_bare]
      have hcount := argSteps_count args
      exact fallsShort_of_lt (Nat.lt_of_le_of_lt hcount (by omega))
  | .assigned name value :: args =>
      have htokens : argSteps (x :: cstr "=" :: argumentTokens (.assigned name value :: args)) =
          .named x name.text :: argSteps (cstr "=" :: value.text :: argumentTokens args) :=
        argSteps_named
      rw [htokens, bareCount_assigned]
      by_cases hvalue : value.text = cstr "="
      · have hshort := argSteps_equals (cstr "=") args
        rw [← hvalue] at hshort ⊢
        exact hshort
      · rw [argSteps_numbered hvalue]
        exact ⟨Nat.succ_le_succ (argSteps_count (.bare value :: args)), fun _ => rfl⟩
termination_by 2 * args.length + 1

end

theorem exists_named_equals (x : Bytes) (tokens : List Bytes) :
    ∃ value steps, argSteps (x :: cstr "=" :: tokens) = .named x value :: steps := by
  cases tokens with
  | nil => exact ⟨_, _, argSteps_cut⟩
  | cons value tokens => exact ⟨_, _, argSteps_named⟩

section

variable {s e : Quoted} {args : List TextArgument}

theorem text_ne_equals_of_numbered
    (hnumbered : numberedTexts (argSteps (argumentTokens (.bare s :: .bare e :: args))) =
      numberedTexts ((.bare s :: .bare e :: args).map TextArgument.meant))
    (hnames : ∀ p ∈ namedValues (argSteps (argumentTokens (.bare s :: .bare e :: args))),
      p.1 ≠ cstr "=") : e.text ≠ cstr "=" := by
  intro he
  have htokens : argumentTokens (.bare s :: .bare e :: args) =
      s.text :: cstr "=" :: argumentTokens args := by
    rw [← he]
    rfl
  rw [htokens] at hnumbered hnames
  have hhead := (argSteps_equals s.text args).2 (congrArg List.length hnumbered)
  rw [hnumbered] at hhead
  have hs : s.text = cstr "=" := Option.some.inj hhead
  obtain ⟨value, steps, hsteps⟩ := exists_named_equals s.text (argumentTokens args)
  rw [hsteps] at hnames
  exact hnames (s.text, value) List.mem_cons_self hs

/-- Where all arguments are numbered as they are meant and no name is a `=`, no string is taken for
one. -/
theorem equalsApart_of_numbered
    (hnumbered : numberedTexts (argSteps (argumentTokens args)) =
      numberedTexts (args.map TextArgument.meant))
    (hnames : ∀ p ∈ namedValues (argSteps (argumentTokens args)), p.1 ≠ cstr "=") :
    EqualsApart args := by
  induction args with
  | nil => exact fun s e hinside => absurd hinside.length_le (by simp)
  | cons a args ih =>
      intro s e hinside
      cases a with
      | assigned name value =>
          rw [argSteps_assigned] at hnumbered hnames
          rcases List.infix_cons_iff.1 hinside with hprefix | hinside
          · cases (List.cons_prefix_cons.1 hprefix).1
          · exact ih hnumbered (fun p hp => hnames p (List.mem_cons_of_mem _ hp)) s e hinside
      | bare s' =>
          have hnext : ∀ e rest, args = .bare e :: rest → e.text ≠ cstr "=" := by
            rintro e rest rfl
            exact text_ne_equals_of_numbered hnumbered hnames
          rcases List.infix_cons_iff.1 hinside with hprefix | hinside
          · obtain ⟨rest, hrest⟩ := (List.cons_prefix_cons.1 hprefix).2
            exact hnext e rest hrest.symm
          · rw [argSteps_bare s' hnext] at hnumbered hnames
            exact ih (List.cons.inj hnumbered).2 hnames s e hinside

end

/-! ## The names of the variables -/

theorem mem_names_variablesOf (text : Bytes) (steps : List ArgStep) (name : Bytes) :
    name ∈ (variablesOf text steps).map (·.1) ↔ name = cstr "ARGS" ∨ name = cstr "NUM_ARG" ∨
      name ∈ (namedValues steps).map (·.1) ∨
      ∃ n < (numberedTexts steps).length, name = argName n := by
  simp only [variablesOf, List.map_cons, List.map_append, numberedFrom_names, List.mem_cons,
    List.mem_append, List.mem_map (f := argName), List.mem_range'_1, Nat.zero_le, true_and,
    Nat.zero_add, eq_comm]

/-- The numbered variables are those of the numbered texts. -/
theorem mem_variablesOf_argName (text : Bytes) {steps : List ArgStep}
    (hfree : ∀ p ∈ namedValues steps, FreeName p.1) (n : ℕ) (x : Bytes) :
    (argName n, x) ∈ variablesOf text steps ↔ (numberedTexts steps)[n]? = some x := by
  rw [← mem_numberedFrom, variablesOf, List.mem_cons, List.mem_cons, List.mem_append]
  constructor
  · rintro (heq | heq | hmem | hmem)
    · exact absurd (Prod.mk.inj heq).1 (argName_ne n).1
    · exact absurd (Prod.mk.inj heq).1 (argName_ne n).2
    · exact absurd rfl ((hfree _ hmem).2.2 n)
    · exact hmem
  · exact fun hmem => .inr (.inr (.inr hmem))

/-- The tokens of arguments. -/
theorem argumentTokens_length (args : List TextArgument) :
    (argumentTokens args).length = bareCount args +
      3 * (namedValues (args.map TextArgument.meant)).length := by
  induction args with
  | nil => rfl
  | cons a args ih =>
      cases a with
      | bare s =>
          have hlen : (argumentTokens (.bare s :: args)).length =
              (argumentTokens args).length + 1 := rfl
          rw [hlen, ih, bareCount_bare, Nat.add_right_comm]
          rfl
      | assigned name value =>
          have hlen : (argumentTokens (.assigned name value :: args)).length =
              (argumentTokens args).length + 3 := rfl
          rw [hlen, ih, bareCount_assigned, Nat.add_assoc]
          rfl

section

variable {l : ArgumentList}

/-- Where the variables have the right names, the loop has taken the right tokens for names. -/
theorem named_of_names
    (h : ∀ name, name ∈ (variablesOf l.text (argSteps (argumentTokens l.arguments))).map (·.1) ↔
      name ∈ l.variables.map (·.1)) :
    ((namedValues (l.arguments.map TextArgument.meant)).map (·.1)).Perm
      ((namedValues (argSteps (argumentTokens l.arguments))).map (·.1)) := by
  have hlow := (argSteps_lengths (argumentTokens l.arguments)).1
  have hhigh := (argSteps_lengths (argumentTokens l.arguments)).2
  have hcount := argSteps_count l.arguments
  rw [argumentTokens_length] at hlow hhigh
  generalize argSteps (argumentTokens l.arguments) = steps at h hlow hhigh hcount ⊢
  have hvariables : ∀ name, name ∈ l.variables.map (·.1) ↔ _ :=
    mem_names_variablesOf l.text (l.arguments.map TextArgument.meant)
  have hfree : ∀ x ∈ (namedValues (l.arguments.map TextArgument.meant)).map (·.1),
      FreeName x := List.forall_mem_map.2 l.free_meant
  have hnodup : ((namedValues (l.arguments.map TextArgument.meant)).map (·.1)).Nodup := by
    rw [ArgumentList.named_names]
    exact l.distinct
  have hsub : (namedValues (l.arguments.map TextArgument.meant)).map (·.1) ++
      (List.range' (numberedTexts steps).length
        (bareCount l.arguments - (numberedTexts steps).length)).map argName ⊆
      (namedValues steps).map (·.1) := by
    intro x hx
    rcases List.mem_append.1 hx with hx | hx
    · have hname := (h x).2 ((hvariables x).2 (.inr (.inr (.inl hx))))
      obtain ⟨hargs, hnum, harg⟩ := hfree x hx
      rcases (mem_names_variablesOf _ _ _).1 hname with rfl | rfl | hx | ⟨n, -, rfl⟩
      · exact absurd rfl hargs
      · exact absurd rfl hnum
      · exact hx
      · exact absurd rfl (harg n)
    · obtain ⟨k, hk, rfl⟩ := List.mem_map.1 hx
      rw [List.mem_range'_1] at hk
      have hname := (h (argName k)).2 ((hvariables _).2 (.inr (.inr (.inr ⟨k, ?_, rfl⟩))))
      · rcases (mem_names_variablesOf _ _ _).1 hname with hargs | hnum | hx | ⟨n, hn, heq⟩
        · exact absurd hargs (argName_ne k).1
        · exact absurd hnum (argName_ne k).2
        · exact hx
        · have := argName_injective heq
          omega
      · change k < bareCount l.arguments
        omega
  have hdistinct : ((namedValues (l.arguments.map TextArgument.meant)).map (·.1) ++
      (List.range' (numberedTexts steps).length
        (bareCount l.arguments - (numberedTexts steps).length)).map argName).Nodup := by
    refine List.nodup_append.2 ⟨hnodup, List.Nodup.map argName_injective List.nodup_range', ?_⟩
    intro x hx y hy
    obtain ⟨k, -, rfl⟩ := List.mem_map.1 hy
    exact (hfree x hx).2.2 k
  have hroom := (List.subperm_of_subset hdistinct hsub).length_le
  simp only [List.length_append, List.length_map, List.length_range'] at hroom
  have hsubperm := List.subperm_of_subset hnodup fun x hx =>
    hsub (List.mem_append_left _ hx)
  refine hsubperm.perm_of_length_le ?_
  rw [List.length_map, List.length_map]
  omega

end

/-! ## The variables that are made -/

section

variable {lib : TmpLibrary} {noParse : Bytes} (l : ArgumentList)

theorem ArgumentList.zero_notMem : 0 ∉ l.text := by
  obtain ⟨args, trailing, hargs, htrailing, hdistinct⟩ := l
  have hblank : ¬IsBlank 0 := by decide
  have hquoted : ∀ (s : Quoted) {rest : Bytes}, 0 ∉ rest → 0 ∉ s.written rest := by
    intro s rest hrest h
    rcases List.mem_cons.1 h with h | h
    · exact absurd h (by decide)
    · rcases List.mem_append.1 h with h | h
      · exact s.zero_notMem h
      · rcases List.mem_cons.1 h with h | h
        · exact absurd h (by decide)
        · exact hrest h
  change 0 ∉ writtenArguments args trailing
  clear hdistinct
  induction args with
  | nil => exact fun h => hblank (htrailing 0 h)
  | cons a args ih =>
      have hrest := ih fun b hb => hargs b (List.mem_cons_of_mem _ hb)
      intro h
      rcases List.mem_append.1 h with h | h
      · exact hblank (hargs a List.mem_cons_self 0 h)
      · obtain ⟨blanks, a⟩ := a
        cases a with
        | bare s => exact hquoted s hrest h
        | assigned name value =>
            rcases List.mem_append.1 h with h | h
            · exact name.zero_notMem h
            · rcases List.mem_cons.1 h with h | h
              · exact absurd h (by decide)
              · exact hquoted value hrest h

theorem TokenTexts.zero_notMem {buf : Bytes} {tokens : List Bytes}
    (h : TokenTexts noParse buf tokens) : ∀ token ∈ tokens, 0 ∉ token := by
  induction h with
  | nil h => exact fun token htoken => absurd htoken List.not_mem_nil
  | cons hparse hrest htype hzero h ih => exact List.forall_mem_cons.2 ⟨hzero, ih⟩

theorem ArgumentList.tokens_length : (argumentTokens l.arguments).length ≤ l.text.length := by
  obtain ⟨args, trailing, hargs, htrailing, hdistinct⟩ := l
  change (argumentTokens (args.map (·.2))).length ≤ (writtenArguments args trailing).length
  clear hdistinct hargs
  induction args with
  | nil => exact Nat.zero_le _
  | cons a args ih =>
      have htokens : (argumentTokens ((a :: args).map (·.2))).length =
          a.2.tokens.length + (argumentTokens (args.map (·.2))).length := List.length_append
      have htext : (writtenArguments (a :: args) trailing).length =
          a.1.length + (a.2.written (writtenArguments args trailing)).length := List.length_append
      rw [htokens, htext]
      cases a.2 with
      | bare s =>
          simp only [TextArgument.tokens, TextArgument.written, Quoted.written, List.length_cons,
            List.length_append, List.length_nil]
          omega
      | assigned name value =>
          simp only [TextArgument.tokens, TextArgument.written, Quoted.written, List.length_cons,
            List.length_append, List.length_nil]
          omega

theorem zero_stepPuts {tokens : List Bytes} (h : ∀ token ∈ tokens, 0 ∉ token) (argNum : ℕ) :
    ∀ p ∈ stepPuts argNum (argSteps tokens), 0 ∉ p.2 := by
  have hnum : ∀ n, ∀ p ∈ stepPuts n [], 0 ∉ p.2 := by
    intro n p hp
    rw [List.mem_singleton.1 hp]
    exact zero_notMem_decimal n
  induction tokens using argSteps.induct generalizing argNum with
  | case1 => exact hnum argNum
  | case2 x => exact List.forall_mem_cons.2 ⟨h x List.mem_cons_self, hnum _⟩
  | case3 x =>
      rw [argSteps_cut]
      exact List.forall_mem_cons.2 ⟨List.not_mem_nil, hnum _⟩
  | case4 x value tokens ih =>
      rw [argSteps_named]
      simp only [List.forall_mem_cons] at h
      exact List.forall_mem_cons.2 ⟨h.2.2.1, ih h.2.2.2 argNum⟩
  | case5 x y tokens hy ih =>
      rw [argSteps_numbered hy]
      rw [List.forall_mem_cons] at h
      exact List.forall_mem_cons.2 ⟨h.1, ih h.2 (argNum + 1)⟩

def ArgumentList.puts : List (Bytes × Bytes) :=
  (cstr "ARGS", l.text) :: stepPuts 0 (argSteps (argumentTokens l.arguments))

theorem ArgumentList.zero_puts (h : Separating noParse) : ∀ p ∈ l.puts, 0 ∉ p.2 :=
  List.forall_mem_cons.2 ⟨l.zero_notMem, zero_stepPuts (l.tokenTexts h).zero_notMem 0⟩

theorem makeTmpVariables_arguments (h : Separating noParse) (memory : ℕ → ℕ → UInt8)
    (t : TmpTable) : makeTmpVariables lib memory noParse l.text t =
      some (l.puts.foldl (TmpTable.put lib) (tmpVariableDeleteAll t)) := by
  rw [makeTmpVariables, cString_eq_self l.zero_notMem]
  simp only [put_behind l.zero_notMem]
  exact makeTmpLoop_tokens h (l.tokenTexts h) l.tokens_length 0 _

variable (lib noParse)

def VariablesRight : Prop :=
  ∀ memory behind t, ∃ t', makeTmpVariables lib memory noParse l.text t = some t' ∧
    ∀ name value, tmpVariableGet lib behind t' name = some value ↔ (name, value) ∈ l.variables

variable {lib noParse l}

theorem equalsApart_of_variablesRight (h : Separating noParse)
    (hright : VariablesRight lib noParse l) : EqualsApart l.arguments := by
  have hperm := puts_perm l.text (argSteps (argumentTokens l.arguments))
  obtain ⟨t, hmake, hget⟩ := hright (fun _ _ => 0) (fun _ => 0) noTmpVariables
  rw [makeTmpVariables_arguments l h, Option.some.injEq] at hmake
  have htidy : (tmpVariableDeleteAll noTmpVariables).Tidy lib :=
    ⟨⟨List.Pairwise.nil, fun v hv => absurd hv List.not_mem_nil⟩, List.nodup_nil⟩
  have hnames : ∀ name, name ∈
      (variablesOf l.text (argSteps (argumentTokens l.arguments))).map (·.1) ↔
        name ∈ l.variables.map (·.1) := by
    intro name
    rw [← (hperm.map (·.1)).mem_iff]
    have hput := names_puts htidy l.puts name
    rw [hmake] at hput
    refine ((or_iff_left List.not_mem_nil).symm.trans hput.symm).trans ?_
    have htable := tidy_puts htidy l.puts
    rw [hmake] at htable
    have hiff := fun value => (get_eq_some_iff htable (fun _ => 0) name value).symm.trans
      (hget name value)
    constructor
    · intro hmem
      obtain ⟨v, hv, hname⟩ := List.mem_map.1 hmem
      exact List.mem_map.2 ⟨(name, _), (hiff _).1 ⟨v, hv, hname, rfl⟩, rfl⟩
    · intro hmem
      obtain ⟨⟨name', value⟩, hp, rfl⟩ := List.mem_map.1 hmem
      obtain ⟨v, hv, hname, -⟩ := (hiff value).2 hp
      exact List.mem_map.2 ⟨v, hv, hname⟩
  have hnamed := named_of_names hnames
  have hname : ∀ p ∈ namedValues (argSteps (argumentTokens l.arguments)),
      ∃ name : ArgumentName, p.1 = name.text := by
    intro p hp
    obtain ⟨q, hq, heq⟩ := List.mem_map.1 (hnamed.mem_iff.2 (List.mem_map_of_mem hp))
    rw [← heq]
    exact exists_argumentName hq
  have hfree : ∀ p ∈ namedValues (argSteps (argumentTokens l.arguments)), FreeName p.1 := by
    intro p hp
    obtain ⟨name, heq⟩ := hname p hp
    rw [heq]
    exact name.free
  have hdistinct : ((namedValues (argSteps (argumentTokens l.arguments))).map (·.1)).Nodup := by
    rw [← hnamed.nodup_iff, ArgumentList.named_names]
    exact l.distinct
  have hnodup : (l.puts.map (·.1)).Nodup :=
    (hperm.map (·.1)).nodup_iff.2 (nodup_variablesOf _ hdistinct hfree)
  have hvalues : ∀ name value, (name, value) ∈ l.variables ↔ (name, value) ∈ l.puts := by
    intro name value
    rw [← hget, ← hmake]
    exact get_puts rfl hnodup (l.zero_puts h) _ name value
  refine equalsApart_of_numbered (List.ext_getElem? fun n => Option.ext fun x => ?_) fun p hp => ?_
  · rw [← mem_variablesOf_argName l.text hfree, ← hperm.mem_iff]
    exact (hvalues _ _).symm.trans (mem_variablesOf_argName _ l.free_meant n x)
  · obtain ⟨name, heq⟩ := hname p hp
    rw [heq]
    exact name.text_ne_equals

/-- A message of arguments leaves exactly their variables if and only if no string that is a `=`
comes directly behind an argument without a name. -/
theorem make_tmp_variables_right_iff (lib : TmpLibrary) (h : Separating noParse)
    (l : ArgumentList) : VariablesRight lib noParse l ↔ EqualsApart l.arguments := by
  refine ⟨equalsApart_of_variablesRight h, fun hapart memory behind t => ?_⟩
  have hperm : l.puts.Perm l.variables := by
    rw [ArgumentList.puts, argSteps_eq_meant hapart]
    exact puts_perm l.text _
  refine ⟨_, makeTmpVariables_arguments l h memory t, fun name value => ?_⟩
  rw [← hperm.mem_iff]
  exact get_puts rfl ((hperm.map (·.1)).nodup_iff.2 l.nodup_variables) (l.zero_puts h) behind name
    value

end

theorem separating_nil : Separating [] := ⟨fun _ hc => absurd hc List.not_mem_nil, List.not_mem_nil⟩

/-- `"a" "="` -/
def equalsString : ArgumentList where
  args := [([], .bare ⟨[chr 'a'], List.forall_mem_singleton.2 (by decide)⟩),
    ([chr ' '], .bare ⟨[chr '='], List.forall_mem_singleton.2 (by decide)⟩)]
  trailing := []
  args_blank := List.forall_mem_cons.2 ⟨List.forall_mem_nil _,
    List.forall_mem_singleton.2 (List.forall_mem_singleton.2 (by decide))⟩
  trailing_blank := List.forall_mem_nil _
  distinct := by decide

theorem make_tmp_variables_right_equals :
    VariablesRight plainTmpLibrary [] equalsString ↔ EqualsApart equalsString.arguments :=
  make_tmp_variables_right_iff plainTmpLibrary separating_nil equalsString

/-- A string that is a `=` is taken for the one behind a name. -/
theorem make_tmp_variables_not_always_right :
    ¬∀ (lib : TmpLibrary) (l : ArgumentList), VariablesRight lib [] l := by
  intro h
  have hapart := equalsApart_of_variablesRight separating_nil (h plainTmpLibrary equalsString)
  exact hapart _ _ (List.infix_refl _) rfl

end ScOpen
