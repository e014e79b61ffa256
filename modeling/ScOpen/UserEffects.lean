import ScOpen.ActivityRuns

/-!
# What the commands do to the variables

The control commands change the variables only by what they evaluate and by the variables of the
`for` loops, and `gosub` by its arguments. So what evaluations, these assignments and the commands
that are no control commands keep is kept by every run of the interpreter.
-/

namespace ScOpen

/-- What the interpreter is built on keeps the property of the variables, as long as only such
commands are run. -/
structure Language.Keeps {σ : Type} (lang : Language σ) (allowed : TokenType → Prop)
    (P : σ → Prop) : Prop where
  expression : ∀ tokens i user, P user → P (lang.expression tokens i user).user
  variablePut : ∀ i name value user, P user → P (lang.variablePut .user i name value user)
  takeArguments : ∀ queue tokens i user, P user → P (lang.takeArguments queue tokens i user).2.2
  command : ∀ type p, allowed type → P p.env.user → P (lang.command type p).program.env.user

section

variable {σ : Type} {lang : Language σ} {allowed : TokenType → Prop} {P : σ → Prop}
  {p : Running σ}

theorem evaluate_keeps (h : lang.Keeps allowed P) (hp : P p.env.user) :
    P (evaluate lang p).2.2.env.user := h.expression _ _ _ hp

theorem getToken_keeps (lang : Language σ) (hp : P p.env.user) :
    P (getToken lang p).2.2.env.user := by
  rwa [getToken_env]

theorem readAfter_keeps (k : ℕ) (hp : P p.env.user) : P (readAfter k p).2.2.env.user := by
  rwa [readAfter_env]

theorem cmdIf_keeps (h : lang.Keeps allowed P) (p : Running σ) (hp : P p.env.user) :
    P (cmdIf lang p).2.env.user := by
  fun_induction cmdIf lang p with
  | case1 => exact evaluate_keeps h hp
  | case2 => exact evaluate_keeps h hp
  | case3 p e q herror hvalue r hnull => exact readAfter_keeps _ (evaluate_keeps h hp)
  | case4 p e q herror hvalue r hnull helse ih =>
      exact ih (readAfter_keeps _ (evaluate_keeps h hp))
  | case5 p e q herror hvalue r hnull helse => exact readAfter_keeps _ (evaluate_keeps h hp)

theorem whileCondition_keeps (h : lang.Keeps allowed P) (hp : P p.env.user) :
    P (whileCondition lang p).2.env.user := by
  have heval := evaluate_keeps h (getToken_keeps lang hp)
  simp only [whileCondition]
  split
  · exact heval
  · split
    · exact heval
    · split
      · exact readAfter_keeps _ heval
      · exact readAfter_keeps _ heval

theorem forStep_keeps (h : lang.Keeps allowed P) (n x y : ℤ) (hp : P p.env.user) :
    P (forStep lang n x y p).2.2.2.env.user := by
  have hget := getToken_keeps lang hp
  by_cases hstep : (getToken lang p).1 = .step
  · simp only [forStep, if_pos hstep]
    exact evaluate_keeps h hget
  · simp only [forStep, if_neg hstep]
    exact hget

theorem forTo_keeps (h : lang.Keeps allowed P) (n x : ℤ) (hp : P p.env.user) :
    P (forTo lang n x p).2.2.2.env.user := by
  have heval := evaluate_keeps h hp
  simp only [forTo]
  split
  · exact heval
  · exact forStep_keeps h n x _ heval

theorem forHead_keeps (h : lang.Keeps allowed P) (n : ℤ) (type : TokenType) (name : Bytes)
    (hp : P p.env.user) : P (forHead lang n type name p).2.2.2.env.user := by
  have hassign := getToken_keeps lang hp
  have heval := evaluate_keeps h hassign
  simp only [forHead]
  split
  · exact hp
  · split
    · exact hassign
    · split
      · exact heval
      · have hput := h.variablePut (evaluate lang (getToken lang p).2.2).2.2.programIdx name
          (evaluate lang (getToken lang p).2.2).2.1 _ heval
        split
        · exact getToken_keeps lang hput
        · exact forTo_keeps h n _ (getToken_keeps lang hput)

theorem forSkip_keeps {name : Bytes} {r : ℕ × ℤ × ℤ × Running σ} (hr : P r.2.2.2.env.user) :
    P (forSkip name r).2.env.user := by
  obtain ⟨iret, x, y, p⟩ := r
  simp only [forSkip]
  split
  · split
    · exact hr
    · exact readAfter_keeps _ hr
  · exact hr

theorem cmdNext_keeps (h : lang.Keeps allowed P) {r : ℕ × Running σ} (hp : P p.env.user)
    (hr : cmdNext lang p = some r) : P r.2.env.user := by
  have hget := getToken_keeps lang hp
  simp only [cmdNext] at hr
  split at hr
  · cases hr
    exact hget
  · simp only [Option.bind_eq_bind] at hr
    obtain ⟨y, hy, hr⟩ := Option.bind_eq_some_iff.1 hr
    obtain ⟨z, hz, hr⟩ := Option.bind_eq_some_iff.1 hr
    split at hr
    · obtain ⟨start, hstart, hr⟩ := Option.bind_eq_some_iff.1 hr
      cases hr
      exact h.variablePut _ _ _ _ hget
    · cases hr
      exact hget

theorem cmdGosub_keeps (h : lang.Keeps allowed P) {r : ℕ × Running σ} (hp : P p.env.user)
    (hr : cmdGosub lang p = some r) : P r.2.env.user := by
  simp only [cmdGosub, Option.bind_eq_bind] at hr
  obtain ⟨⟨iret, queue, q⟩, hqueue, hr⟩ := Option.bind_eq_some_iff.1 hr
  have henv := (gosubQueue_env _ _ _ _ hqueue).trans (getToken_env lang p)
  have hq : P q.env.user := by
    have huser : q.env.user = p.env.user := congrArg InterpEnv.user henv
    rwa [huser]
  cases hr
  exact h.takeArguments _ _ _ _ hq

theorem cmdGoto_keeps (h : lang.Keeps allowed P) (hp : P p.env.user) :
    P (cmdGoto lang p).2.env.user := by
  have heval := evaluate_keeps h hp
  simp only [cmdGoto]
  split
  · exact heval
  · split
    · exact heval
    · exact heval

theorem cmdBreakLoop_keeps (hp : P p.env.user) : P (cmdBreakLoop p).env.user := by
  have hread := readAfter_keeps (loopEnd 0 0 p.ahead) hp
  simp only [cmdBreakLoop]
  split
  · rwa [getProgramTokenNoEval_env]
  · split
    · exact hread
    · exact hread

theorem cmdEndWhile_keeps (hp : P p.env.user) : P (cmdEndWhile p).2.env.user := by
  simp only [cmdEndWhile]
  split
  · exact hp
  · split
    · exact hp
    · exact hp

theorem cmdReturn_keeps (hp : P p.env.user) : P (cmdReturn p).2.env.user := by
  simp only [cmdReturn]
  split
  · exact hp
  · split
    · exact hp
    · exact hp

/-- A command that is allowed keeps the property, one case for each control command. -/
theorem command_keeps (h : lang.Keeps allowed P) {type : TokenType} (htype : allowed type)
    (hp : P p.env.user) {r : CommandResult σ} (hr : command lang type p = some r) :
    P r.program.env.user := by
  unfold command at hr
  split at hr
  · cases hr
    exact cmdBreakLoop_keeps hp
  · cases hr
    rwa [noWait, cmdContinue_env]
  · cases hr
    rwa [noWait, cmdElse_env]
  · cases hr
    rwa [noWait, cmdElse_env]
  · cases hr
    exact cmdEndWhile_keeps hp
  · cases hr
    exact forSkip_keeps (forHead_keeps h _ _ _ (getToken_keeps lang hp))
  · obtain ⟨s, hs, rfl⟩ := Option.map_eq_some_iff.1 hr
    exact cmdGosub_keeps h hp hs
  · cases hr
    exact cmdGoto_keeps h hp
  · cases hr
    exact cmdIf_keeps h p hp
  · obtain ⟨s, hs, rfl⟩ := Option.map_eq_some_iff.1 hr
    exact cmdNext_keeps h hp hs
  · cases hr
    exact cmdReturn_keeps hp
  · cases hr
    exact whileCondition_keeps h hp
  · cases hr
  · cases hr
    exact evaluate_keeps h hp
  · split at hr
    · cases hr
      exact h.command _ _ htype hp
    · cases hr
      exact hp

theorem afterCommand_keeps {d : Dispatch} {r : CommandResult σ} (hr : P r.program.env.user) :
    P (afterCommand lang d r).program.env.user := by
  have herror : P (getErrorToken lang r.program).2.2.env.user := by
    rwa [getErrorToken_control]
  simp only [afterCommand]
  split
  · exact hr
  · split
    · exact herror
    · split
      · exact herror
      · exact herror

/-- A turn keeps the property when the command that it dispatches is allowed. -/
theorem turn_keeps (h : lang.Keeps allowed P) (hp : P p.env.user)
    (hallowed : ∀ d ∈ (turn lang p).dispatched, allowed d.2) :
    P (turn lang p).program.env.user := by
  rcases turn_cases lang p with ⟨-, henv⟩ | hcommand
  · rwa [henv]
  · have hdispatched := @runCommand_dispatched σ lang p.programIdx (getToken lang p).1
      (getToken lang p).2.2
    rw [hcommand] at hallowed ⊢
    have htype := hallowed _ hdispatched
    simp only [runCommand]
    split
    · exact getToken_keeps lang hp
    · rename_i r hr
      exact afterCommand_keeps (command_keeps h htype (getToken_keeps lang hp) hr)

/-- A run keeps the property when all the commands that it dispatches are allowed. -/
theorem executeTurns_keeps (h : lang.Keeps allowed P) {n : ℕ} {ds : List Dispatch} {after : After}
    {q : Running σ} (hp : P p.env.user) (hrun : executeTurns lang n p = (ds, after, q))
    (hallowed : ∀ d ∈ ds, allowed d.2) : P q.env.user := by
  induction n generalizing p ds with
  | zero =>
      cases hrun
      exact hp
  | succ n ih =>
      rw [executeTurns] at hrun
      simp only at hrun
      split at hrun
      · obtain ⟨⟩ := hrun
        refine ih (turn_keeps h hp fun d hd => ?_) rfl fun d hd => ?_
        · exact hallowed d (List.mem_append_left _ (Option.mem_toList.2 hd))
        · exact hallowed d (List.mem_append_right _ hd)
      · cases hrun
        exact turn_keeps h hp fun d hd => hallowed d (Option.mem_toList.2 hd)

end

end ScOpen
