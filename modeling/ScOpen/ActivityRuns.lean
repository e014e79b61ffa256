import ScOpen.ActivityEffects
import ScOpen.Runs
import ScOpen.StructuredCode

/-!
# Suspending and resuming in any order

The counters and the numbered variables are stacks that all activities share. As long as each
activity leaves only what was entered last, every `return`, `next` and `end_while` finds what its
own activity has entered.
-/

namespace ScOpen

open NumberedStacks

section

variable {σ : Type} {lang : Language σ} {tokens : List Token}

/-! ## One turn -/

/-- A turn passes over some tokens, or runs a command. -/
theorem turn_cases (lang : Language σ) (p : Running σ) :
    ((turn lang p).dispatched = none ∧ (turn lang p).program.env = p.env) ∨
      turn lang p = runCommand lang p.programIdx (getToken lang p).1 (getToken lang p).2.2 := by
  have hget := getToken_env lang p
  simp only [turn]
  split
  all_goals first
    | exact .inr rfl
    | exact .inl ⟨rfl, hget⟩
    | exact .inl ⟨rfl, (getToken_env lang _).trans ((getToken_env lang _).trans hget)⟩

theorem afterCommand_ok {r : CommandResult σ} (h : r.iret = 0) (d : Dispatch) :
    afterCommand lang d r = ⟨some d, if r.wait then .leave 0 else .go, r.program⟩ := if_pos h

theorem afterCommand_control (d : Dispatch) (r : CommandResult σ) :
    (afterCommand lang d r).program.env.control =
      if r.unhandled lang then r.program.env.control.reset else r.program.env.control := by
  by_cases hok : r.iret = 0
  · have hhandled : r.unhandled lang = false := by
      rw [CommandResult.unhandled, decide_eq_false (not_not.2 hok), Bool.false_and]
    rw [afterCommand_ok hok, hhandled]
    rfl
  · have henv : (getErrorToken lang r.program).2.2.env = r.program.env :=
      getErrorToken_control r.program
    have hfails : decide (r.iret ≠ 0) = true := decide_eq_true hok
    simp only [afterCommand, if_neg hok, CommandResult.unhandled, hfails, Bool.true_and]
    rcases hg : getErrorToken lang r.program with ⟨iret, errorIdx, p⟩
    rw [hg] at henv
    have hcontrol : p.env.control = r.program.env.control := congrArg InterpEnv.control henv
    by_cases hiret : iret ≠ 0
    · have hunhandled : (decide (iret ≠ 0) || errorIdx.isNone) = true := by
        rw [decide_eq_true hiret, Bool.true_or]
      rw [if_pos hiret, if_pos hunhandled, ← hcontrol]
      rfl
    · rw [if_neg hiret, decide_eq_false hiret, Bool.false_or]
      cases errorIdx with
      | none => exact congrArg Control.reset hcontrol
      | some idx => exact hcontrol

theorem runCommand_some {i : ℕ} {type : TokenType} {q : Running σ} {r : CommandResult σ}
    (h : command lang type q = some r) :
    runCommand lang i type q = afterCommand lang (i, type) r := by
  rw [runCommand, h]

theorem runCommand_none {i : ℕ} {type : TokenType} {q : Running σ}
    (h : command lang type q = none) : runCommand lang i type q = ⟨some (i, type), .gone, q⟩ := by
  rw [runCommand, h]

/-! ## One command -/

def TokenType.isCounted : TokenType → Bool
  | .gosub | .return_ | .for_ | .next | .while_ | .endWhile | .breakLoop => true
  | _ => false

theorem TokenType.counted_cases {type : TokenType} (h : type.isCounted = true) :
    type = .gosub ∨ type = .return_ ∨ type = .for_ ∨ type = .next ∨ type = .while_ ∨
      type = .endWhile ∨ type = .breakLoop := by
  cases type <;> first
    | exact absurd h Bool.false_ne_true
    | simp only [true_or, or_true]

theorem command_uncounted {type : TokenType} {q : Running σ} {r : CommandResult σ}
    (htype : type.isCounted = false) (h : command lang type q = some r) :
    r.program.env.control = q.env.control ∨
      type.isPlainCommand = true ∧ r = lang.command type q := by
  cases type <;> first
    | exact absurd htype.symm Bool.false_ne_true
    | (cases h
       all_goals first
         | exact .inl rfl
         | exact .inr ⟨rfl, rfl⟩
         | exact .inl (cmdIf_control q)
         | exact .inl (cmdGoto_control q)
         | exact .inl (congrArg InterpEnv.control (cmdElse_env q))
         | exact .inl (congrArg InterpEnv.control (cmdContinue_env q)))

theorem Entered.run_uncounted {type : TokenType} (htype : type.isCounted = false) (e : Entered)
    (a : ℕ) (q : Running σ) (c : Control) : e.run lang a type q c = e := by
  cases type <;> first
    | rfl
    | exact absurd htype.symm Bool.false_ne_true

theorem Entered.inOrder_uncounted {type : TokenType} (htype : type.isCounted = false) {e : Entered}
    {a : ℕ} {q : Running σ} {r : CommandResult σ} (h : e.InOrder a type q r)
    (hplain : type.isPlainCommand = true) : q.env.control.Keeps r.program.env.control := by
  cases type <;> first
    | exact absurd htype.symm Bool.false_ne_true
    | exact h hplain

theorem Entered.Counted.run {e : Entered} {a : ℕ} {type : TokenType} {q : Running σ}
    {r : CommandResult σ} (h : e.Counted q.env.control) (hcmd : command lang type q = some r)
    (hord : e.InOrder a type q r) :
    (e.run lang a type q r.program.env.control).Counted r.program.env.control := by
  cases htype : type.isCounted with
  | false =>
      rw [Entered.run_uncounted htype]
      rcases command_uncounted htype hcmd with hsame | ⟨hplain, -⟩
      · rw [hsame]
        exact h
      · exact h.keep (Entered.inOrder_uncounted htype hord hplain)
  | true =>
      rcases TokenType.counted_cases htype with rfl | rfl | rfl | rfl | rfl | rfl | rfl
      · obtain ⟨x, hx, rfl⟩ := Option.map_eq_some_iff.1 hcmd
        exact h.gosub hx
      · cases hcmd
        exact h.return_ hord
      · cases hcmd
        exact h.for_ hord
      · obtain ⟨x, hx, rfl⟩ := Option.map_eq_some_iff.1 hcmd
        exact h.next hord.1 hord.2 hx
      · cases hcmd
        exact h.while_
      · cases hcmd
        exact h.endWhile hord
      · cases hcmd
        exact h.breakLoop hord.1 hord.2

/-! ## Every run -/

theorem Entered.Only.drop {e : Entered} {a : ℕ} (h : e.Only a) : e.drop a = ⟨[], [], []⟩ := by
  rw [Entered.drop, leaveAll_eq_nil h.1, leaveAll_eq_nil h.2.1, leaveAll_eq_nil h.2.2]

theorem Entered.next_none {p : Running σ} (h : (turn lang p).dispatched = none) (e : Entered)
    (a : ℕ) : e.next lang a p = e := by
  rw [Entered.next, h]

theorem Entered.next_some {p : Running σ} {i : ℕ} {type : TokenType} {r : CommandResult σ}
    (h : (turn lang p).dispatched = some (i, type))
    (hcmd : command lang type (getToken lang p).2.2 = some r) (e : Entered) (a : ℕ) :
    e.next lang a p = if r.unhandled lang then e.drop a
      else e.run lang a type (getToken lang p).2.2 r.program.env.control := by
  rw [Entered.next, h]
  simp only [hcmd]

theorem getToken_control (p : Running σ) :
    (getToken lang p).2.2.env.control = p.env.control :=
  congrArg InterpEnv.control (getToken_env lang p)

def Activities.Right (s : Activities σ) : Prop := s.entered.Counted s.env.control

theorem Activities.Starts.right {s : Activities σ} (h : s.Starts) : s.Right := by
  obtain ⟨hnest, hfor, hwhile, hentered⟩ := h
  rw [Activities.Right, hentered]
  refine ⟨?_, ?_, ?_⟩
  · rw [hnest]
    exact represents_nil _
  · rw [hfor]
    exact represents_nil _
  · rw [hwhile]
    exact represents_nil _

/-- A turn that is in order. -/
theorem Activities.Right.turn {s : Activities σ} {a : ℕ} (h : s.Right)
    (hok : s.InOrder lang tokens (.turn a))
    (hgo : (ScOpen.turn lang (s.running tokens a)).after ≠ .gone) :
    (s.entered.next lang a (s.running tokens a)).Counted
      (ScOpen.turn lang (s.running tokens a)).program.env.control := by
  rcases turn_cases lang (s.running tokens a) with ⟨hnone, henv⟩ | hrun
  · rw [Entered.next_none hnone, henv]
    exact h
  · cases hcmd : command lang (getToken lang (s.running tokens a)).1
        (getToken lang (s.running tokens a)).2.2 with
    | none =>
        rw [hrun, runCommand_none hcmd] at hgo
        exact absurd rfl hgo
    | some r =>
        rw [runCommand_some hcmd] at hrun
        have hd : (ScOpen.turn lang (s.running tokens a)).dispatched =
            some ((s.running tokens a).programIdx, (getToken lang (s.running tokens a)).1) := by
          rw [hrun, afterCommand_dispatched]
        have hcond := hok _ _ r hd hcmd
        rw [Entered.next_some hd hcmd, hrun, afterCommand_control]
        by_cases hunhandled : r.unhandled lang = true
        · rw [if_pos hunhandled] at hcond
          rw [if_pos hunhandled, if_pos hunhandled, hcond.drop]
          exact .reset _
        · rw [if_neg hunhandled] at hcond
          rw [if_neg hunhandled, if_neg hunhandled]
          have hbefore :
              s.entered.Counted (getToken lang (s.running tokens a)).2.2.env.control := by
            rw [getToken_control]
            exact h
          exact hbefore.run hcmd hcond

theorem Activities.Right.step {s s' : Activities σ} {op : ActivityOp σ} (h : s.Right)
    (hok : s.InOrder lang tokens op) (hstep : s.step lang tokens op = some s') : s'.Right := by
  cases op with
  | turn a =>
      simp only [Activities.step] at hstep
      split_ifs at hstep with hgone
      cases hstep
      exact h.turn hok hgone
  | place a idx user =>
      cases hstep
      exact h

abbrev Activities.Reached (lang : Language σ) (tokens : List Token) : Activities σ → Prop :=
  Runs.Reaches (Activities.step lang tokens) (Activities.InOrder lang tokens) Activities.Starts

theorem Activities.Reached.right {s : Activities σ} (h : s.Reached lang tokens) : s.Right :=
  h.invariant (fun _ => Activities.Starts.right) fun _ _ _ => Activities.Right.step

/-! ## What a command finds -/

theorem turn_dispatched {p : Running σ} {i : ℕ} {type : TokenType}
    (h : (turn lang p).dispatched = some (i, type)) :
    turn lang p = runCommand lang p.programIdx type (getToken lang p).2.2 := by
  rcases turn_cases lang p with ⟨hnone, -⟩ | hrun
  · rw [hnone] at h
    cases h
  · have hd := congrArg Turn.dispatched hrun
    rw [h, runCommand_dispatched] at hd
    cases hd
    exact hrun

theorem last_of_own {β : Type*} {a : ℕ} {v : β} {xs : List (ℕ × β)} (h : own a xs = some v)
    (hlast : Last a xs) : ∃ x rest, xs = x :: rest ∧ x.2 = v := by
  cases xs with
  | nil => cases h
  | cons x rest =>
      rw [hlast.own_cons] at h
      exact ⟨x, rest, rfl, Option.some.inj h⟩

/-- A command that is in order has what it leaves entered last by its own activity. -/
theorem Activities.InOrder.last {s : Activities σ} {a i : ℕ} {type : TokenType}
    {r : CommandResult σ} (h : s.InOrder lang tokens (.turn a))
    (hd : (turn lang (s.running tokens a)).dispatched = some (i, type))
    (hcmd : command lang type (getToken lang (s.running tokens a)).2.2 = some r) :
    s.entered.Only a ∨
      s.entered.InOrder a type (getToken lang (s.running tokens a)).2.2 r := by
  have hcond := h i type r hd hcmd
  split_ifs at hcond
  · exact .inl hcond
  · exact .inr hcond

theorem Entered.Only.last {e : Entered} {a : ℕ} (h : e.Only a) :
    Last a e.calls ∧ Last a e.fors ∧ Last a e.whiles :=
  ⟨fun x hx => h.1 x (List.mem_of_mem_head? hx), fun x hx => h.2.1 x (List.mem_of_mem_head? hx),
    fun x hx => h.2.2 x (List.mem_of_mem_head? hx)⟩

theorem cmdNext_counted {e : Entered} {q : Running σ} {x : ℕ × ForLoop} {xs : List (ℕ × ForLoop)}
    (h : e.Counted q.env.control) (hfors : e.fors = x :: xs) :
    cmdNext lang q = some (nextBy lang x.2 q) := by
  have hcounted := h.fors
  rw [hfors] at hcounted
  obtain ⟨hto, hstep, hidx⟩ := hcounted.top
  have hget : (getToken lang q).2.2.env.control = q.env.control := getToken_control q
  rw [← hget] at hto hstep hidx
  simp only [cmdNext, nextBy, hto, hstep, hidx, Option.bind_eq_bind, Option.bind_some]
  cases lang.variableGet .user (getToken lang q).2.2.programIdx (getToken lang q).2.1
      (getToken lang q).2.2.env.user with
  | none => rfl
  | some value =>
      by_cases hgoes : nextValue value x.2.step ≤ x.2.limit
      · simp only [if_pos hgoes]
        rfl
      · simp only [if_neg hgoes]
        rfl

/-- In every run of commands that are in order, a `return`, an `end_while` and a `next` go on with
what their own activity has entered last. -/
theorem activities_continue {s : Activities σ} (h : s.Reached lang tokens) {a : ℕ}
    (hok : s.InOrder lang tokens (.turn a)) : s.Continues lang tokens a := by
  have hcounted : s.entered.Counted (getToken lang (s.running tokens a)).2.2.env.control := by
    rw [getToken_control]
    exact h.right
  refine ⟨?_, ?_, ?_⟩
  · intro i idx hd hown
    have hlast : Last a s.entered.calls := by
      rcases hok.last hd rfl with honly | hord
      · exact honly.last.1
      · exact hord
    obtain ⟨x, rest, hcalls, rfl⟩ := last_of_own hown hlast
    rw [turn_dispatched hd, runCommand_some rfl]
    have hreturn := hcounted.cmdReturn hcalls
    have hiret : (noWait (cmdReturn (getToken lang (s.running tokens a)).2.2)).iret = 0 := by
      rw [hreturn]
      rfl
    rw [afterCommand_ok hiret, hreturn]
    exact ⟨rfl, rfl⟩
  · intro i idx hd hown
    have hlast : Last a s.entered.whiles := by
      rcases hok.last hd rfl with honly | hord
      · exact honly.last.2.2
      · exact hord
    obtain ⟨x, rest, hwhiles, rfl⟩ := last_of_own hown hlast
    rw [turn_dispatched hd, runCommand_some rfl]
    have hend := hcounted.cmdEndWhile hwhiles
    have hiret : (noWait (cmdEndWhile (getToken lang (s.running tokens a)).2.2)).iret = 0 := by
      rw [hend]
      rfl
    rw [afterCommand_ok hiret, hend]
    exact ⟨rfl, rfl⟩
  · intro i l hd hown
    rcases hfors : s.entered.fors with _ | ⟨x, rest⟩
    · rw [hfors] at hown
      cases hown
    have hnext : cmdNext lang (getToken lang (s.running tokens a)).2.2 =
        some (nextBy lang x.2 (getToken lang (s.running tokens a)).2.2) :=
      cmdNext_counted hcounted hfors
    have hcmd : command lang .next (getToken lang (s.running tokens a)).2.2 =
        some (noWait (nextBy lang x.2 (getToken lang (s.running tokens a)).2.2)) := by
      rw [command, hnext]
      rfl
    have hlast : Last a s.entered.fors := by
      rcases hok.last hd hcmd with honly | hord
      · exact honly.last.2.1
      · exact hord.2
    rw [hfors] at hown hlast
    rw [hlast.own_cons] at hown
    cases hown
    exact hcmd

end

/-! ## Two activities in their gosubs -/

/-- Two labels, and a command that does nothing. -/
def subLanguage : Language Unit where
  evaluateToken _ text _ := text
  expression _ i _ := ⟨0, [], 0, i, ()⟩
  variableGet _ _ _ _ := none
  variablePut _ _ _ _ _ := ()
  label _ name _ := if name = cstr "m" then some 4 else some 10
  takeArguments _ _ _ _ := (0, 0, ())
  command _ p := ⟨0, false, p⟩
  staleIdx := none

def subStart : Activities Unit :=
  ⟨⟨⟨0, 0, 0, fun _ => none, fun _ => none, fun _ => none, fun _ => none, fun _ => none⟩, ()⟩,
    fun a => if a = 0 then 0 else 6, ⟨[], [], []⟩⟩

def waitLanguage : Language Unit := { subLanguage with command := fun _ p => ⟨0, true, p⟩ }

/-- Activity 0 waits in its gosub. Activity 1 is started, waits in its own gosub, and is resumed. -/
def bothWait : List (ActivityOp Unit) :=
  [.turn 0, .turn 0, .place 1 6 (), .turn 1, .turn 1, .place 1 11 ()]

theorem bothWait_inOrder : Runs.Admits (Activities.step waitLanguage subTokens)
    (Activities.InOrder waitLanguage subTokens) subStart bothWait := by
  refine .cons ?_ rfl (.cons ?_ rfl (.cons trivial rfl (.cons ?_ rfl (.cons ?_ rfl
    (.cons trivial rfl trivial)))))
  all_goals
    intro i type r hd hcmd
    cases hd
    cases hcmd
  · exact fun h => by cases h
  · exact fun _ => .refl _
  · exact fun h => by cases h
  · exact fun _ => .refl _

/-- Activity 1 comes to its `return` first, and then activity 0, which is resumed, to its own. -/
theorem activities_continue_both :
    ∃ s s₁ s₂, bothWait.foldlM (Activities.step waitLanguage subTokens) subStart = some s ∧
      s.step waitLanguage subTokens (.turn 1) = some s₁ ∧
      s₁.step waitLanguage subTokens (.place 0 5 ()) = some s₂ ∧
      (turn waitLanguage (s.running subTokens 1)).program.programIdx = 9 ∧
      (turn waitLanguage (s₂.running subTokens 0)).program.programIdx = 3 := by
  have hsteps : ∃ s s₁ s₂, bothWait.foldlM (Activities.step waitLanguage subTokens) subStart =
        some s ∧ s.step waitLanguage subTokens (.turn 1) = some s₁ ∧
      s₁.step waitLanguage subTokens (.place 0 5 ()) = some s₂ ∧
      s.InOrder waitLanguage subTokens (.turn 1) ∧ s₂.InOrder waitLanguage subTokens (.turn 0) ∧
      (turn waitLanguage (s.running subTokens 1)).dispatched = some (11, .return_) ∧
      (turn waitLanguage (s₂.running subTokens 0)).dispatched = some (5, .return_) ∧
      own 1 s.entered.calls = some 9 ∧ own 0 s₂.entered.calls = some 3 := by
    refine ⟨_, _, _, rfl, rfl, rfl, ?_, ?_, rfl, rfl, rfl, rfl⟩
    all_goals
      intro i type r hd hcmd
      cases hd
      cases hcmd
      exact fun x hx => by cases hx; rfl
  obtain ⟨s, s₁, s₂, hs, hs₁, hs₂, hok, hok₂, hd, hd₂, hown, hown₂⟩ := hsteps
  have hstart : subStart.Starts := ⟨rfl, rfl, rfl, rfl⟩
  have hreached : s.Reached waitLanguage subTokens :=
    (Runs.Reaches.start hstart).admits bothWait_inOrder hs
  have hplace : s₁.InOrder waitLanguage subTokens (.place 0 5 ()) := trivial
  have hreached₂ : s₂.Reached waitLanguage subTokens :=
    (hreached.next hok hs₁).next hplace hs₂
  exact ⟨s, s₁, s₂, hs, hs₁, hs₂, ((activities_continue hreached hok).return_ 11 9 hd hown).2,
    ((activities_continue hreached₂ hok₂).return_ 5 3 hd₂ hown₂).2⟩

/-- Both activities are in their gosubs, and the first one comes to its `return` first. -/
theorem activities_not_always_continue :
    ∃ s, Runs.Reaches (Activities.step subLanguage subTokens) (fun _ _ => True)
      Activities.Starts s ∧ ¬s.Continues subLanguage subTokens 0 := by
  have hrun : ∃ s, [ActivityOp.turn 0, .turn 0, .turn 1].foldlM
      (Activities.step subLanguage subTokens) subStart = some s ∧
      (turn subLanguage (s.running subTokens 0)).dispatched = some (5, .return_) ∧
      own 0 s.entered.calls = some 3 ∧
      (turn subLanguage (s.running subTokens 0)).program.programIdx = 9 :=
    ⟨_, rfl, rfl, rfl, rfl⟩
  obtain ⟨s, hs, hd, hown, hidx⟩ := hrun
  have hstart : subStart.Starts := ⟨rfl, rfl, rfl, rfl⟩
  refine ⟨s, Runs.Reaches.run (.start hstart) hs, ?_⟩
  intro hcontinues
  have hright := (hcontinues.return_ 5 3 hd hown).2
  rw [hidx] at hright
  cases hright

end ScOpen
