import ScOpen.Activities

/-!
# What the commands of an activity enter and leave

While every command is in order, the counters are the numbers of the gosubs and loops that are
entered, and the numbered variables hold what each of them has stored.
-/

namespace ScOpen

open NumberedStacks

/-- The counters are the numbers of what is entered, and the numbered variables what is stored. -/
structure Entered.Counted (e : Entered) (c : Control) : Prop where
  calls : Represents c.nest (fun n i => c.returnIdx n = some i) e.calls
  fors : Represents c.forNest (fun n (l : ForLoop) =>
    c.forTo n = some l.limit ∧ c.forStep n = some l.step ∧ c.forIdx n = some l.idx) e.fors
  whiles : Represents c.whileNest (fun n i => c.whileIdx n = some i) e.whiles

/-! ## The counters -/

theorem Entered.Counted.keep {e : Entered} {c c' : Control} (h : e.Counted c) (hkeep : c.Keeps c') :
    e.Counted c' := by
  refine ⟨?_, ?_, ?_⟩
  · rw [hkeep.nest]
    apply h.calls.keep
    intro n hn i hi
    rw [hkeep.returnIdx n hn]
    exact hi
  · rw [hkeep.forNest]
    apply h.fors.keep
    intro n hn l hl
    rw [hkeep.forTo n hn, hkeep.forStep n hn, hkeep.forIdx n hn]
    exact hl
  · rw [hkeep.whileNest]
    apply h.whiles.keep
    intro n hn i hi
    rw [hkeep.whileIdx n hn]
    exact hi

theorem Entered.Counted.reset (c : Control) : Entered.Counted ⟨[], [], []⟩ c.reset :=
  ⟨represents_nil _, represents_nil _, represents_nil _⟩

theorem Entered.Counted.called {e : Entered} {c : Control} (h : e.Counted c) (a idx : ℕ) :
    Entered.Counted { e with calls := (a, idx) :: e.calls } (c.called idx) := by
  refine ⟨?_, h.fors, h.whiles⟩
  apply h.calls.push
  · exact Function.update_self _ _ _
  · intro n hn i hi
    have hne : n ≠ c.nest + 1 := by omega
    exact (Function.update_of_ne hne _ _).trans hi

theorem Entered.Counted.inWhile {e : Entered} {c : Control} (h : e.Counted c) (a idx : ℕ) :
    Entered.Counted { e with whiles := (a, idx) :: e.whiles } (c.inWhile idx) := by
  refine ⟨h.calls, h.fors, ?_⟩
  apply h.whiles.push
  · exact Function.update_self _ _ _
  · intro n hn i hi
    have hne : n ≠ c.whileNest + 1 := by omega
    exact (Function.update_of_ne hne _ _).trans hi

theorem Entered.Counted.overWhile {e : Entered} {c : Control} (h : e.Counted c) (idx : ℕ) :
    e.Counted (c.overWhile idx) := by
  refine ⟨h.calls, h.fors, ?_⟩
  apply h.whiles.keep
  intro n hn i hi
  have hne : n ≠ c.whileNest + 1 := by omega
  exact (Function.update_of_ne hne _ _).trans hi

/-- The numbered variables of the next `for` are not those of an entered one. -/
theorem setFor_kept {c : Control} {n : ℤ} (hn : n ≤ c.forNest) (limit step : ℤ) (idx : ℕ) :
    (c.setFor (c.forNest + 1) limit step idx).forTo n = c.forTo n ∧
      (c.setFor (c.forNest + 1) limit step idx).forStep n = c.forStep n ∧
      (c.setFor (c.forNest + 1) limit step idx).forIdx n = c.forIdx n := by
  have hne : n ≠ c.forNest + 1 := by omega
  exact ⟨Function.update_of_ne hne _ _, Function.update_of_ne hne _ _,
    Function.update_of_ne hne _ _⟩

theorem Entered.Counted.setFor {e : Entered} {c : Control} (h : e.Counted c) (limit step : ℤ)
    (idx : ℕ) : e.Counted (c.setFor (c.forNest + 1) limit step idx) := by
  refine ⟨h.calls, ?_, h.whiles⟩
  apply h.fors.keep
  intro n hn l hl
  obtain ⟨hto, hstep, hidx⟩ := setFor_kept hn limit step idx
  rw [hto, hstep, hidx]
  exact hl

theorem Entered.Counted.inFor {e : Entered} {c : Control} (h : e.Counted c) (a : ℕ)
    (limit step : ℤ) (idx : ℕ) :
    Entered.Counted { e with fors := (a, ⟨limit, step, idx⟩) :: e.fors }
      (c.inFor limit step idx) := by
  refine ⟨h.calls, ?_, h.whiles⟩
  apply h.fors.push
  · exact ⟨Function.update_self _ _ _, Function.update_self _ _ _, Function.update_self _ _ _⟩
  · intro n hn l hl
    obtain ⟨hto, hstep, hidx⟩ := setFor_kept hn limit step idx
    exact ⟨hto.trans hl.1, hstep.trans hl.2.1, hidx.trans hl.2.2⟩

/-! ## Each command -/

section

variable {σ : Type} {lang : Language σ} {e : Entered} {a : ℕ} {q : Running σ}

theorem Entered.Counted.gosub (h : e.Counted q.env.control) {r : ℕ × Running σ}
    (hcmd : cmdGosub lang q = some r) :
    (e.run lang a .gosub q r.2.env.control).Counted r.2.env.control := by
  obtain ⟨idx, hend, hcontrol⟩ := cmdGosub_control hcmd
  have hrun : e.run lang a .gosub q r.2.env.control = { e with calls := (a, idx) :: e.calls } := by
    simp only [Entered.run, hend, Option.getD_some]
  rw [hrun, hcontrol]
  exact h.called a idx

/-- A `return` finds the gosub that was entered last. -/
theorem Entered.Counted.cmdReturn (h : e.Counted q.env.control) {x : ℕ × ℕ} {xs : List (ℕ × ℕ)}
    (hcalls : e.calls = x :: xs) :
    ScOpen.cmdReturn q = (0, Running.setControl
      { q.env.control with nest := q.env.control.nest - 1 } (setProgramTokenIdx x.2 q)) := by
  have hcounted := h.calls
  rw [hcalls] at hcounted
  rcases cmdReturn_control q with ⟨hnest, -⟩ | ⟨-, hnone, -⟩ | ⟨idx, -, hidx, hreturn⟩
  · have hone := hcounted.one_le
    omega
  · have htop := hcounted.top
    rw [hnone] at htop
    cases htop
  · have htop := hcounted.top
    rw [hidx] at htop
    cases htop
    exact hreturn

theorem Entered.Counted.return_ (h : e.Counted q.env.control) (hlast : Last a e.calls) :
    (e.run lang a .return_ q (ScOpen.cmdReturn q).2.env.control).Counted
      (ScOpen.cmdReturn q).2.env.control := by
  rcases hcalls : e.calls with _ | ⟨x, xs⟩
  · have hnest : q.env.control.nest < 1 := by
      have hheight := h.calls.height
      rw [hcalls, List.length_nil] at hheight
      omega
    have hreturn : ScOpen.cmdReturn q = (0, q) := by rw [ScOpen.cmdReturn, if_pos hnest]
    have hrun : e.run lang a .return_ q q.env.control = e := by
      simp only [Entered.run, hcalls]
      rw [leave_nil, ← hcalls]
    rw [hreturn, hrun]
    exact h
  · have hne : e.calls ≠ [] := by
      rw [hcalls]
      exact List.cons_ne_nil x xs
    rw [h.cmdReturn hcalls]
    exact ⟨h.calls.leave hne hlast, h.fors, h.whiles⟩

/-- An `end_while` finds the `while` that was entered last. -/
theorem Entered.Counted.cmdEndWhile (h : e.Counted q.env.control) {x : ℕ × ℕ}
    {xs : List (ℕ × ℕ)} (hwhiles : e.whiles = x :: xs) :
    ScOpen.cmdEndWhile q = (0, Running.setControl
      { q.env.control with whileNest := q.env.control.whileNest - 1 }
      (setProgramTokenIdx x.2 q)) := by
  have hcounted := h.whiles
  rw [hwhiles] at hcounted
  rcases cmdEndWhile_control q with ⟨hnest, -⟩ | ⟨-, hnone, -⟩ | ⟨idx, -, hidx, hend⟩
  · have hone := hcounted.one_le
    omega
  · have htop := hcounted.top
    rw [hnone] at htop
    cases htop
  · have htop := hcounted.top
    rw [hidx] at htop
    cases htop
    exact hend

theorem Entered.Counted.endWhile (h : e.Counted q.env.control) (hlast : Last a e.whiles) :
    (e.run lang a .endWhile q (ScOpen.cmdEndWhile q).2.env.control).Counted
      (ScOpen.cmdEndWhile q).2.env.control := by
  rcases hwhiles : e.whiles with _ | ⟨x, xs⟩
  · have hnest : q.env.control.whileNest < 1 := by
      have hheight := h.whiles.height
      rw [hwhiles, List.length_nil] at hheight
      omega
    have hend : ScOpen.cmdEndWhile q = (0, q) := by rw [ScOpen.cmdEndWhile, if_pos hnest]
    have hrun : e.run lang a .endWhile q q.env.control = e := by
      simp only [Entered.run, hwhiles]
      rw [leave_nil, ← hwhiles]
    rw [hend, hrun]
    exact h
  · have hne : e.whiles ≠ [] := by
      rw [hwhiles]
      exact List.cons_ne_nil x xs
    rw [h.cmdEndWhile hwhiles]
    exact ⟨h.calls, h.fors, h.whiles.leave hne hlast⟩

theorem Entered.Counted.while_ (h : e.Counted q.env.control) :
    (e.run lang a .while_ q (cmdWhile lang q).2.env.control).Counted
      (cmdWhile lang q).2.env.control := by
  have hcontrol : (cmdWhile lang q).2.env.control = q.env.control.inWhile q.savedProgramIdx ∨
      (cmdWhile lang q).2.env.control = q.env.control.overWhile q.savedProgramIdx :=
    cmdWhile_control q
  rcases hcontrol with hin | hover
  · have hrun : e.run lang a .while_ q (q.env.control.inWhile q.savedProgramIdx) =
        { e with whiles := (a, q.savedProgramIdx) :: e.whiles } := if_pos (Int.lt_succ _)
    rw [hin, hrun]
    exact h.inWhile a _
  · have hrun : e.run lang a .while_ q (q.env.control.overWhile q.savedProgramIdx) = e :=
      if_neg (lt_irrefl _)
    rw [hover, hrun]
    exact h.overWhile _

theorem Entered.Counted.for_ (h : e.Counted q.env.control) (hok : (cmdFor lang q).1 = 0) :
    (e.run lang a .for_ q (cmdFor lang q).2.env.control).Counted
      (cmdFor lang q).2.env.control := by
  obtain ⟨limit, step, idx, hin | hover⟩ := cmdFor_control hok
  · have hrun : e.run lang a .for_ q (q.env.control.inFor limit step idx) =
        { e with fors := (a, ⟨limit, step, idx⟩) :: e.fors } := by
      have hto : (q.env.control.inFor limit step idx).forTo (q.env.control.forNest + 1) =
          some limit := Function.update_self _ _ _
      have hstep : (q.env.control.inFor limit step idx).forStep (q.env.control.forNest + 1) =
          some step := Function.update_self _ _ _
      have hidx : (q.env.control.inFor limit step idx).forIdx (q.env.control.forNest + 1) =
          some idx := Function.update_self _ _ _
      have hnest : (q.env.control.inFor limit step idx).forNest = q.env.control.forNest + 1 := rfl
      simp only [Entered.run]
      rw [hnest, if_pos (Int.lt_succ _), hto, hstep, hidx]
      rfl
    rw [hin, hrun]
    exact h.inFor a limit step idx
  · have hrun : e.run lang a .for_ q
        (q.env.control.setFor (q.env.control.forNest + 1) limit step idx) = e :=
      if_neg (lt_irrefl _)
    rw [hover, hrun]
    exact h.setFor limit step idx

theorem Entered.Counted.next (h : e.Counted q.env.control) (hne : e.fors ≠ [])
    (hlast : Last a e.fors) {r : ℕ × Running σ} (hcmd : cmdNext lang q = some r) :
    (e.run lang a .next q r.2.env.control).Counted r.2.env.control := by
  rcases cmdNext_control hcmd with hsame | hleft
  · have hrun : e.run lang a .next q q.env.control = e := if_neg (lt_irrefl _)
    rw [hsame, hrun]
    exact h
  · have hrun : e.run lang a .next q
        { q.env.control with forNest := q.env.control.forNest - 1 } =
          { e with fors := leave a e.fors } := if_pos (Int.sub_one_lt_of_le le_rfl)
    rw [hleft, hrun]
    exact ⟨h.calls, h.fors.leave hne hlast, h.whiles⟩

theorem Entered.Counted.breakLoop (h : e.Counted q.env.control) (hnext : breakEnd q ≠ .next)
    (hend : breakEnd q = .endWhile → e.whiles ≠ [] ∧ Last a e.whiles) :
    (e.run lang a .breakLoop q (cmdBreakLoop q).env.control).Counted
      (cmdBreakLoop q).env.control := by
  rw [cmdBreakLoop_control, Entered.run, if_neg hnext]
  by_cases hw : breakEnd q = .endWhile
  · obtain ⟨hne, hlast⟩ := hend hw
    rw [if_pos hw, if_pos hw]
    exact ⟨h.calls, h.fors, h.whiles.leave hne hlast⟩
  · rw [if_neg hw, if_neg hw]
    exact h

end

end ScOpen
