import ScOpen.Execute

/-!
# What the commands do to the counters

The counters and the numbered variables are shared by all activities, so every command is asked
what it does to them: most leave them, an entered loop and a gosub take the next number, and a loop
that is left and a return give the last one back.
-/

namespace ScOpen

section

variable {σ : Type} {lang : Language σ}

@[simp] theorem setProgramTokenIdx_env (idx : ℕ) (p : Running σ) :
    (setProgramTokenIdx idx p).env = p.env := rfl

@[simp] theorem putProgramToken_env (p : Running σ) : (putProgramToken p).env = p.env := rfl

@[simp] theorem Running.setControl_control (c : Control) (p : Running σ) :
    (p.setControl c).env.control = c := rfl

@[simp] theorem Running.setUser_control (user : σ) (p : Running σ) :
    (p.setUser user).env.control = p.env.control := rfl

@[simp] theorem evaluate_control (p : Running σ) :
    (evaluate lang p).2.2.env.control = p.env.control := rfl

@[simp] theorem getProgramTokenNoEval_env (p : Running σ) :
    (getProgramTokenNoEval p).2.2.env = p.env := by
  simp only [getProgramTokenNoEval, getProgramToken]
  split
  · rfl
  · split <;> rfl

@[simp] theorem getToken_env (lang : Language σ) (p : Running σ) :
    (getToken lang p).2.2.env = p.env := getProgramTokenNoEval_env p

@[simp] theorem readAfter_env (k : ℕ) (p : Running σ) : (readAfter k p).2.2.env = p.env :=
  getProgramTokenNoEval_env _

@[simp] theorem cmdElse_env (p : Running σ) : (cmdElse p).env = p.env := readAfter_env _ p

@[simp] theorem cmdContinue_env (p : Running σ) : (cmdContinue p).env = p.env := by
  simp only [cmdContinue]
  split
  · exact readAfter_env _ p
  · exact readAfter_env _ p

theorem readAfter_control (k : ℕ) (p : Running σ) :
    (readAfter k p).2.2.env.control = p.env.control := by rw [readAfter_env]

@[simp] theorem cmdIf_control (p : Running σ) : (cmdIf lang p).2.env.control = p.env.control := by
  fun_induction cmdIf lang p with
  | case1 => rfl
  | case2 => rfl
  | case3 p e q herror hvalue r hnull => exact readAfter_control _ q
  | case4 p e q herror hvalue r hnull helse ih => exact ih.trans (readAfter_control _ q)
  | case5 p e q herror hvalue r hnull helse => exact readAfter_control _ q

@[simp] theorem cmdGoto_control (p : Running σ) :
    (cmdGoto lang p).2.env.control = p.env.control := by
  simp only [cmdGoto]
  split
  · rfl
  · split <;> rfl

@[simp] theorem getErrorToken_control (p : Running σ) :
    (getErrorToken lang p).2.2.env = p.env := by
  simp only [getErrorToken]
  split
  · split
    · split <;> simp only [getToken_env]
    · simp only [getToken_env]
  · split
    · exact getToken_env lang p
    · exact getToken_env lang p

/-! ## Gosub and return -/

theorem gosubQueue_env (iret : ℕ) (queue : List (TokenType × Bytes)) (n : ℕ) (p : Running σ)
    {r : ℕ × List (TokenType × Bytes) × Running σ}
    (h : gosubQueue lang iret queue n p = some r) : r.2.2.env = p.env := by
  induction n generalizing iret queue p with
  | zero => cases h
  | succ n ih =>
      have hget := getToken_env lang p
      rw [gosubQueue] at h
      simp only at h
      split at h
      · cases h
        exact hget
      · split at h
        · exact (ih _ _ _ h).trans hget
        · split at h
          · split at h
            · cases h
              exact hget
            · exact (ih _ _ _ h).trans hget
          · exact (ih _ _ _ h).trans hget

def gosubEnd (lang : Language σ) (p : Running σ) : Option ℕ :=
  let (_, name, p) := getToken lang p
  let iret := if lang.label p.programIdx name p.env.user = none then 1 else 0
  (gosubQueue lang iret [] (p.ahead.length + 1) p).map fun r => r.2.2.programIdx

theorem cmdGosub_control {p : Running σ} {r : ℕ × Running σ} (h : cmdGosub lang p = some r) :
    ∃ idx, gosubEnd lang p = some idx ∧ r.2.env.control = p.env.control.called idx := by
  simp only [cmdGosub, Option.bind_eq_bind] at h
  obtain ⟨⟨iret, queue, q⟩, hqueue, hr⟩ := Option.bind_eq_some_iff.1 h
  have henv := (gosubQueue_env _ _ _ _ hqueue).trans (getToken_env lang p)
  cases hr
  refine ⟨q.programIdx, ?_, ?_⟩
  · simp only [gosubEnd, hqueue, Option.map_some]
  · have hcontrol : q.env.control = p.env.control := congrArg InterpEnv.control henv
    simp only [Running.setUser_control, setProgramTokenIdx_env, Running.setControl_control,
      hcontrol]
    rfl

theorem cmdReturn_control (p : Running σ) :
    (p.env.control.nest < 1 ∧ cmdReturn p = (0, p)) ∨
      (1 ≤ p.env.control.nest ∧ p.env.control.returnIdx p.env.control.nest = none ∧
        cmdReturn p = (1, p)) ∨
      ∃ idx, 1 ≤ p.env.control.nest ∧ p.env.control.returnIdx p.env.control.nest = some idx ∧
        cmdReturn p = (0, Running.setControl
          { p.env.control with nest := p.env.control.nest - 1 } (setProgramTokenIdx idx p)) := by
  by_cases hnest : p.env.control.nest < 1
  · exact .inl ⟨hnest, by simp only [cmdReturn, if_pos hnest]⟩
  · have hle := not_lt.1 hnest
    cases hidx : p.env.control.returnIdx p.env.control.nest with
    | none => exact .inr (.inl ⟨hle, rfl, by simp only [cmdReturn, if_neg hnest, hidx]⟩)
    | some idx => exact .inr (.inr ⟨idx, hle, rfl, by simp only [cmdReturn, if_neg hnest, hidx]⟩)

/-! ## Loops -/

theorem cmdEndWhile_control (p : Running σ) :
    (p.env.control.whileNest < 1 ∧ cmdEndWhile p = (0, p)) ∨
      (1 ≤ p.env.control.whileNest ∧ p.env.control.whileIdx p.env.control.whileNest = none ∧
        cmdEndWhile p = (1, p)) ∨
      ∃ idx, 1 ≤ p.env.control.whileNest ∧
        p.env.control.whileIdx p.env.control.whileNest = some idx ∧
        cmdEndWhile p = (0, Running.setControl
          { p.env.control with whileNest := p.env.control.whileNest - 1 }
          (setProgramTokenIdx idx p)) := by
  by_cases hnest : p.env.control.whileNest < 1
  · exact .inl ⟨hnest, by simp only [cmdEndWhile, if_pos hnest]⟩
  · have hle := not_lt.1 hnest
    cases hidx : p.env.control.whileIdx p.env.control.whileNest with
    | none => exact .inr (.inl ⟨hle, rfl, by simp only [cmdEndWhile, if_neg hnest, hidx]⟩)
    | some idx =>
        exact .inr (.inr ⟨idx, hle, rfl, by simp only [cmdEndWhile, if_neg hnest, hidx]⟩)

theorem whileCondition_control (lang : Language σ) (p : Running σ) :
    (whileCondition lang p).2.env.control = p.env.control ∨
      (whileCondition lang p).2.env.control =
        { p.env.control with whileNest := p.env.control.whileNest - 1 } := by
  have hget : (getToken lang p).2.2.env.control = p.env.control := by rw [getToken_env]
  simp only [whileCondition]
  split
  · exact .inl hget
  · split
    · exact .inl hget
    · split
      · refine .inl ?_
        rw [readAfter_env]
        exact hget
      · refine .inr ?_
        simp only [whileBreak, Running.setControl_control, readAfter_env, evaluate_control, hget]

theorem cmdWhile_control (p : Running σ) :
    (cmdWhile lang p).2.env.control = p.env.control.inWhile p.savedProgramIdx ∨
      (cmdWhile lang p).2.env.control = p.env.control.overWhile p.savedProgramIdx := by
  rw [cmdWhile]
  rcases whileCondition_control lang (Running.setControl
      (p.env.control.inWhile p.savedProgramIdx) (putProgramToken p)) with hsame | hleft
  · exact .inl hsame
  · refine .inr (hleft.trans ?_)
    have hnest : (p.env.control.inWhile p.savedProgramIdx).whileNest - 1 =
        p.env.control.whileNest := add_sub_cancel_right _ _
    rw [Running.setControl_control, hnest]
    rfl

def breakEnd (p : Running σ) : TokenType := (readAfter (loopEnd 0 0 p.ahead) p).1

theorem cmdBreakLoop_control (p : Running σ) :
    (cmdBreakLoop p).env.control =
      if breakEnd p = .endWhile then
        { p.env.control with whileNest := p.env.control.whileNest - 1 }
      else p.env.control := by
  have hread : (readAfter (loopEnd 0 0 p.ahead) p).2.2.env.control = p.env.control := by
    rw [readAfter_env]
  by_cases hnext : breakEnd p = .next
  · have hend : breakEnd p ≠ .endWhile := by
      rw [hnext]
      exact fun h => by cases h
    rw [if_neg hend, cmdBreakLoop]
    have hif : (readAfter (loopEnd 0 0 p.ahead) p).1 = .next := hnext
    simp only [hif, if_true, getProgramTokenNoEval_env, readAfter_env]
  · have hif : ¬(readAfter (loopEnd 0 0 p.ahead) p).1 = .next := hnext
    rw [cmdBreakLoop]
    simp only [if_neg hif]
    by_cases hend : breakEnd p = .endWhile
    · have hif' : (readAfter (loopEnd 0 0 p.ahead) p).1 = .endWhile := hend
      simp only [hend, hif', if_true, whileBreak, Running.setControl_control, readAfter_env]
    · have hif' : ¬(readAfter (loopEnd 0 0 p.ahead) p).1 = .endWhile := hend
      simp only [if_neg hend, if_neg hif', putProgramToken_env, readAfter_env]

theorem forStep_control (lang : Language σ) (n x y : ℤ) (p : Running σ) :
    ∃ step idx, (forStep lang n x y p).2.2.2.env.control =
      { p.env.control with
        forStep := Function.update p.env.control.forStep n (some step)
        forIdx := Function.update p.env.control.forIdx n (some idx) } := by
  have hget : (getToken lang p).2.2.env.control = p.env.control := by rw [getToken_env]
  rw [forStep]
  by_cases hstep : (getToken lang p).1 = .step
  · simp only [if_pos hstep, Running.setControl_control, evaluate_control, hget]
    exact ⟨_, _, rfl⟩
  · simp only [if_neg hstep, Running.setControl_control, putProgramToken_env, hget]
    exact ⟨_, _, rfl⟩

/-- The control after the limit and the step of a `for`, when there was no error in them. -/
theorem forTo_control {n x : ℤ} {p : Running σ} (h : (forTo lang n x p).1 = 0) :
    ∃ limit step idx, (forTo lang n x p).2.2.2.env.control =
      p.env.control.setFor n limit step idx := by
  rw [forTo] at h ⊢
  simp only at h ⊢
  split
  · rename_i herror
    rw [if_pos herror] at h
    exact absurd h herror
  · obtain ⟨step, idx, hcontrol⟩ := forStep_control lang n x
      (scanInt (evaluate lang p).2.1) (Running.setControl
        { (evaluate lang p).2.2.env.control with
          forTo := Function.update (evaluate lang p).2.2.env.control.forTo n
            (some (scanInt (evaluate lang p).2.1)) } (evaluate lang p).2.2)
    exact ⟨_, step, idx, hcontrol⟩

theorem forHead_control {n : ℤ} {type : TokenType} {name : Bytes} {p : Running σ}
    (h : (forHead lang n type name p).1 = 0) :
    ∃ limit step idx, (forHead lang n type name p).2.2.2.env.control =
      p.env.control.setFor n limit step idx := by
  rw [forHead] at h ⊢
  simp only at h ⊢
  split at h
  · cases h
  · rename_i hname
    rw [if_neg hname]
    split at h
    · cases h
    · rename_i hassign
      rw [if_neg hassign]
      split at h
      · rename_i herror
        exact absurd h herror
      · rename_i hvalue
        rw [if_neg hvalue]
        split at h
        · cases h
        · rename_i hto
          rw [if_neg hto]
          obtain ⟨limit, step, idx, hcontrol⟩ := forTo_control h
          refine ⟨limit, step, idx, hcontrol.trans ?_⟩
          rw [getToken_env, Running.setUser_control, evaluate_control, getToken_env]

/-- A `for` without error is entered, or its body is skipped. -/
theorem forSkip_control {name : Bytes} {r : ℕ × ℤ × ℤ × Running σ}
    (h : (forSkip name r).1 = 0) :
    r.1 = 0 ∧ ((forSkip name r).2.env.control = r.2.2.2.env.control ∨
      (forSkip name r).2.env.control =
        { r.2.2.2.env.control with forNest := r.2.2.2.env.control.forNest - 1 }) := by
  obtain ⟨iret, x, y, p⟩ := r
  simp only [forSkip] at h ⊢
  split at h
  · split at h
    · cases h
    · rename_i hskip _ k hk
      refine ⟨h, .inr ?_⟩
      rw [if_pos hskip]
      exact readAfter_control _ _
  · rename_i henter
    refine ⟨h, .inl ?_⟩
    simp only [if_neg henter]

/-- A `for` without error is entered under the next number, or leaves only the variables of that
number changed. -/
theorem cmdFor_control {p : Running σ} (h : (cmdFor lang p).1 = 0) :
    ∃ limit step idx, (cmdFor lang p).2.env.control = p.env.control.inFor limit step idx ∨
      (cmdFor lang p).2.env.control =
        p.env.control.setFor (p.env.control.forNest + 1) limit step idx := by
  have hcmd : ∃ g, g = getToken lang (Running.setControl
      { p.env.control with forNest := p.env.control.forNest + 1 } p) ∧
      cmdFor lang p = forSkip g.2.1
        (forHead lang (p.env.control.forNest + 1) g.1 g.2.1 g.2.2) := ⟨_, rfl, rfl⟩
  obtain ⟨g, hg, hcmd⟩ := hcmd
  have hget : g.2.2.env = _ := (congrArg (·.2.2.env) hg).trans (getToken_env lang _)
  rw [hcmd] at h ⊢
  obtain ⟨hhead, hskip⟩ := forSkip_control h
  obtain ⟨limit, step, idx, hcontrol⟩ := forHead_control hhead
  rw [hget, Running.setControl_control] at hcontrol
  refine ⟨limit, step, idx, ?_⟩
  rcases hskip with hsame | hleft
  · exact .inl (hsame.trans hcontrol)
  · refine .inr (hleft.trans ?_)
    rw [hcontrol]
    have hnest : (Control.setFor { p.env.control with forNest := p.env.control.forNest + 1 }
        (p.env.control.forNest + 1) limit step idx).forNest - 1 = p.env.control.forNest :=
      add_sub_cancel_right _ _
    rw [hnest]
    rfl

/-- A `next` goes back, leaves its loop, fails without a change, or ends the process. -/
theorem cmdNext_control {p : Running σ} {r : ℕ × Running σ} (h : cmdNext lang p = some r) :
    r.2.env.control = p.env.control ∨
      r.2.env.control = { p.env.control with forNest := p.env.control.forNest - 1 } := by
  have hget : (getToken lang p).2.2.env.control = p.env.control := by rw [getToken_env]
  simp only [cmdNext] at h
  split at h
  · cases h
    exact .inl hget
  · simp only [Option.bind_eq_bind] at h
    obtain ⟨y, hy, h⟩ := Option.bind_eq_some_iff.1 h
    obtain ⟨z, hz, h⟩ := Option.bind_eq_some_iff.1 h
    split at h
    · obtain ⟨start, hstart, h⟩ := Option.bind_eq_some_iff.1 h
      cases h
      exact .inl hget
    · cases h
      refine .inr ?_
      rw [Running.setControl_control, hget]

end

end ScOpen
