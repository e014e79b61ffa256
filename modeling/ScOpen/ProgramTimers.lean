import ScOpen.Runs
import ScOpen.Timers

/-!
# The program's own timers

A program starts and stops its timers by their numbers 0 to 9. What runs should be the timers that
were started and not stopped, each with what it was last started with. Timer 0 has a place of its
own in the table; any other timer is started in the next free place, where `stop_timer` does not
look for it.
-/

namespace ScOpen

/-- What `start_timer` sets a timer to. -/
structure TimerSetting where
  endTime : ℤ
  programIdx : ℕ
  msg : Bytes

def Timer.setting (timer : Timer) : TimerSetting := ⟨timer.endTime, timer.programIdx, timer.msg⟩

/-- The clock and the table, the timers that should run, and the number that each place of the table
was last started for. -/
structure TimerRun where
  clock : ℕ
  timers : Timers
  running : Fin 10 → Option TimerSetting
  number : Fin MAX_TIMERS → Option (Fin 10)

def TimerRun.start (clock : ℕ) : TimerRun where
  clock := clock
  timers := fun _ => ⟨false, 0, 0, []⟩
  running := fun _ => none
  number := fun _ => none

inductive TimerCommand where
  | startTimer (timer : Fin 10) (seconds : ℤ) (programIdx : ℕ) (msg : Bytes)
  | stopTimer (timer : Fin 10)
  | expiry
  | tick (seconds : ℕ)

/-- The place of the table that `stop_timer` clears for a timer number. -/
def TimerRun.place (timer : Fin 10) : Fin MAX_TIMERS := timer.castLE (by decide)

/-- What should run once the timer in a place has gone off. -/
def TimerRun.goneOff (s : TimerRun) (i : Fin MAX_TIMERS) : Fin 10 → Option TimerSetting :=
  (s.number i).elim s.running fun timer => Function.update s.running timer none

def TimerRun.step (s : TimerRun) : TimerCommand → Option TimerRun
  | .startTimer timer seconds programIdx msg =>
      (startTimer timer.val seconds programIdx msg s.clock s.timers).map fun (i, timers) =>
        { clock := s.clock
          timers := timers
          running := Function.update s.running timer (some ⟨s.clock + seconds, programIdx, msg⟩)
          number := Function.update s.number i (some timer) }
  | .stopTimer timer => some { s with
      timers := stopTimer (TimerRun.place timer) s.timers
      running := Function.update s.running timer none }
  | .expiry =>
      match timerHandler s.clock s.timers with
      | (none, timers) => some { s with timers := timers }
      | (some i, timers) => some { s with timers := timers, running := s.goneOff i }
  | .tick seconds => some { s with clock := s.clock + seconds }

/-- The table holds each timer that should run once, with its setting, and no other one. -/
structure TimerRun.Right (s : TimerRun) : Prop where
  of_active : ∀ i, (s.timers i).active = true →
    ∃ timer, s.number i = some timer ∧ s.running timer = some (s.timers i).setting
  of_running : ∀ timer setting, s.running timer = some setting →
    ∃ i, s.number i = some timer ∧ (s.timers i).active = true
  unique : ∀ i j, (s.timers i).active = true → (s.timers j).active = true →
    s.number i = s.number j → i = j

/-- A timer that already runs is started again or stopped only when it is timer 0. -/
def TimerRun.InPlace (s : TimerRun) : TimerCommand → Prop
  | .startTimer timer _ _ _ => timer = 0 ∨ s.running timer = none
  | .stopTimer timer => timer = 0 ∨ s.running timer = none
  | _ => True

/-! ## Places -/

/-- Places 1 to 9 are never used, and place 0 is used for timer 0 only. -/
structure TimerRun.Placed (s : TimerRun) : Prop where
  used : ∀ i timer, s.number i = some timer →
    timer = 0 ∧ i = TimerRun.place 0 ∨ timer ≠ 0 ∧ 10 ≤ i.val
  unused : ∀ i, s.number i = none → (s.timers i).active = false

theorem placed_start (clock : ℕ) : (TimerRun.start clock).Placed where
  used := by simp [TimerRun.start]
  unused := fun _ _ => rfl

theorem TimerRun.step_startTimer {s s' : TimerRun} {timer : Fin 10} {seconds : ℤ}
    {programIdx : ℕ} {msg : Bytes}
    (h : s.step (.startTimer timer seconds programIdx msg) = some s') :
    ∃ i, (timer = 0 ∧ i = place 0 ∨ timer ≠ 0 ∧ 10 ≤ i.val ∧ (s.timers i).active = false) ∧
      s' = { clock := s.clock
             timers := Function.update s.timers i ⟨true, s.clock + seconds, programIdx, msg⟩
             running := Function.update s.running timer (some ⟨s.clock + seconds, programIdx, msg⟩)
             number := Function.update s.number i (some timer) } := by
  simp only [TimerRun.step, Option.map_eq_some_iff] at h
  obtain ⟨⟨i, timers⟩, hstart, rfl⟩ := h
  obtain ⟨hplace, rfl⟩ := startTimer_place hstart
  refine ⟨i, ?_, rfl⟩
  have hzero : ((timer.val : ℤ) = 0) ↔ timer = 0 := by
    rw [Int.natCast_eq_zero]
    exact Fin.val_eq_zero_iff
  rcases hplace with ⟨h0, hi⟩ | ⟨h0, hi, hfree⟩
  · exact .inl ⟨hzero.1 h0, hi⟩
  · exact .inr ⟨fun h => h0 (hzero.2 h), hi, hfree⟩

theorem TimerRun.step_expiry {s s' : TimerRun} (hs : s.Placed) (h : s.step .expiry = some s') :
    s' = s ∨ ∃ i timer, overdueTimer s.clock s.timers = some i ∧ s.number i = some timer ∧
      (s.timers i).active = true ∧ s' = { s with
        timers := stopTimer i s.timers
        running := Function.update s.running timer none } := by
  simp only [TimerRun.step, timerHandler] at h
  cases hoverdue : overdueTimer s.clock s.timers with
  | none =>
      rw [hoverdue] at h
      exact .inl (Option.some.inj h).symm
  | some i =>
      obtain ⟨hactive, -⟩ := overdueTimer_expired hoverdue
      rw [hoverdue] at h
      cases hnumber : s.number i with
      | none =>
          rw [hs.unused i hnumber] at hactive
          cases hactive
      | some timer =>
          simp only [goneOff, hnumber, Option.elim] at h
          exact .inr ⟨i, timer, rfl, hnumber, hactive, (Option.some.inj h).symm⟩

theorem TimerRun.Placed.stop {s : TimerRun} (hs : s.Placed) (i : Fin MAX_TIMERS)
    (running : Fin 10 → Option TimerSetting) :
    ({ s with timers := stopTimer i s.timers, running := running } : TimerRun).Placed := by
  refine ⟨hs.used, ?_⟩
  intro j hj
  by_cases hji : j = i
  · rw [hji]
    simp
  · simp only [stopTimer_ne hji]
    exact hs.unused j hj

theorem TimerRun.Placed.step {s s' : TimerRun} (hs : s.Placed) {a : TimerCommand}
    (h : s.step a = some s') : s'.Placed := by
  cases a with
  | startTimer timer seconds programIdx msg =>
      obtain ⟨i, hplace, rfl⟩ := TimerRun.step_startTimer h
      constructor
      · intro j timer' hj
        by_cases hji : j = i
        · simp only [hji, Function.update_self, Option.some.injEq] at hj ⊢
          subst hj
          exact hplace.imp_right fun hnext => ⟨hnext.1, hnext.2.1⟩
        · simp only [Function.update_of_ne hji] at hj
          exact hs.used j timer' hj
      · intro j hj
        by_cases hji : j = i
        · simp [hji] at hj
        · simp only [Function.update_of_ne hji] at hj ⊢
          exact hs.unused j hj
  | stopTimer timer =>
      obtain rfl := Option.some.inj h
      exact hs.stop _ _
  | expiry =>
      rcases TimerRun.step_expiry hs h with rfl | ⟨i, timer, -, -, -, rfl⟩
      · exact hs
      · exact hs.stop _ _
  | tick seconds =>
      obtain rfl := Option.some.inj h
      exact ⟨hs.used, hs.unused⟩

/-! ## The table and the timers that should run -/

theorem right_start (clock : ℕ) : (TimerRun.start clock).Right where
  of_active := by simp [TimerRun.start]
  of_running := by simp [TimerRun.start]
  unique := by simp [TimerRun.start]

/-- A place is cleared whose timer should not run any more. -/
theorem TimerRun.Right.stop {s : TimerRun} (hs : s.Right) {i : Fin MAX_TIMERS} {timer : Fin 10}
    (hothers : ∀ j, (s.timers j).active = true → (s.number j = some timer ↔ j = i)) :
    ({ s with
       timers := stopTimer i s.timers
       running := Function.update s.running timer none } : TimerRun).Right := by
  constructor
  case of_active =>
    intro j hj
    by_cases hji : j = i
    · simp [hji] at hj
    · simp only [stopTimer_ne hji] at hj ⊢
      obtain ⟨timer', hnumber, hrunning⟩ := hs.of_active j hj
      have hne : timer' ≠ timer := by
        rintro rfl
        exact hji ((hothers j hj).1 hnumber)
      refine ⟨timer', hnumber, ?_⟩
      rw [Function.update_of_ne hne]
      exact hrunning
  case of_running =>
    intro timer' setting hrunning
    by_cases hne : timer' = timer
    · simp [hne] at hrunning
    · simp only [Function.update_of_ne hne] at hrunning
      obtain ⟨j, hnumber, hj⟩ := hs.of_running timer' setting hrunning
      have hji : j ≠ i := by
        rintro rfl
        have htimer := (hothers j hj).2 rfl
        rw [hnumber] at htimer
        exact hne (Option.some.inj htimer)
      refine ⟨j, hnumber, ?_⟩
      simp only [stopTimer_ne hji]
      exact hj
  case unique =>
    have hwas : ∀ j, (stopTimer i s.timers j).active = true → (s.timers j).active = true := by
      intro j hj
      by_cases hji : j = i
      · simp [hji] at hj
      · rwa [stopTimer_ne hji] at hj
    intro j k hj hk heq
    exact hs.unique j k (hwas j hj) (hwas k hk) heq

theorem TimerRun.Right.startTimer {s : TimerRun} (hs : s.Right) {i : Fin MAX_TIMERS}
    {timer : Fin 10} (hothers : ∀ j, (s.timers j).active = true →
      (s.number j = some timer → j = i) ∧ (j = i → s.number j = some timer))
    (timer' : Timer) (hactive : timer'.active = true) :
    ({ clock := s.clock
       timers := Function.update s.timers i timer'
       running := Function.update s.running timer (some timer'.setting)
       number := Function.update s.number i (some timer) } : TimerRun).Right := by
  constructor
  case of_active =>
    intro j hj
    by_cases hji : j = i
    · exact ⟨timer, by simp [hji], by simp [hji]⟩
    · simp only [Function.update_of_ne hji] at hj ⊢
      obtain ⟨number, hnumber, hrunning⟩ := hs.of_active j hj
      have hne : number ≠ timer := by
        rintro rfl
        exact hji ((hothers j hj).1 hnumber)
      refine ⟨number, hnumber, ?_⟩
      rw [Function.update_of_ne hne]
      exact hrunning
  case of_running =>
    intro number setting hrunning
    by_cases hne : number = timer
    · exact ⟨i, by simp [hne], by simpa using hactive⟩
    · simp only [Function.update_of_ne hne] at hrunning
      obtain ⟨j, hnumber, hj⟩ := hs.of_running number setting hrunning
      have hji : j ≠ i := by
        intro hji
        have htimer := (hothers j hj).2 hji
        rw [hnumber] at htimer
        exact hne (Option.some.inj htimer)
      refine ⟨j, ?_, ?_⟩
      · simp only [Function.update_of_ne hji]
        exact hnumber
      · simp only [Function.update_of_ne hji]
        exact hj
  case unique =>
    have hother : ∀ j, j ≠ i → (Function.update s.timers i timer' j).active = true →
        Function.update s.number i (some timer) j ≠ some timer := by
      intro j hji hj
      simp only [Function.update_of_ne hji] at hj ⊢
      exact fun hnumber => hji ((hothers j hj).1 hnumber)
    intro j k hj hk heq
    by_cases hji : j = i
    · by_cases hki : k = i
      · rw [hji, hki]
      · simp only [hji, Function.update_self] at heq
        exact (hother k hki hk heq.symm).elim
    · by_cases hki : k = i
      · simp only [hki, Function.update_self] at heq
        exact (hother j hji hj heq).elim
      · simp only [Function.update_of_ne hji, Function.update_of_ne hki] at hj hk heq
        exact hs.unique j k hj hk heq

/-- A command in place keeps the table right, and only such a command does. -/
theorem TimerRun.Right.step_iff {s s' : TimerRun} (hs : s.Right) (hplaced : s.Placed)
    {a : TimerCommand} (h : s.step a = some s') : s.InPlace a ↔ s'.Right := by
  cases a with
  | startTimer timer seconds programIdx msg =>
      obtain ⟨i, hplace, rfl⟩ := TimerRun.step_startTimer h
      constructor
      · intro hok
        refine hs.startTimer ?_ ⟨true, s.clock + seconds, programIdx, msg⟩ rfl
        intro j hj
        obtain ⟨number, hnumber, hrunning⟩ := hs.of_active j hj
        rcases hplace with ⟨rfl, rfl⟩ | ⟨hne, -, hfree⟩
        · constructor
          · intro hzero
            rcases hplaced.used j 0 hzero with ⟨-, hj0⟩ | ⟨hne, -⟩
            · exact hj0
            · exact (hne rfl).elim
          · rintro rfl
            rcases hplaced.used _ number hnumber with ⟨rfl, -⟩ | ⟨-, hhigh⟩
            · exact hnumber
            · exact absurd hhigh (by simp [place])
        · constructor
          · intro htimer
            rw [htimer] at hnumber
            rw [← Option.some.inj hnumber, hok.resolve_left hne] at hrunning
            cases hrunning
          · rintro rfl
            rw [hfree] at hj
            cases hj
      · intro hright
        by_contra hnot
        simp only [InPlace, not_or] at hnot
        obtain ⟨hne, hruns⟩ := hnot
        obtain ⟨setting, hsetting⟩ := Option.ne_none_iff_exists'.1 hruns
        obtain ⟨j, hnumber, hj⟩ := hs.of_running timer setting hsetting
        rcases hplace with ⟨rfl, -⟩ | ⟨-, -, hfree⟩
        · exact hne rfl
        · have hji : j ≠ i := by
            rintro rfl
            rw [hfree] at hj
            cases hj
          refine hji (hright.unique j i ?_ ?_ ?_)
          · simp only [Function.update_of_ne hji]
            exact hj
          · simp only [Function.update_self]
          · simp only [Function.update_of_ne hji, Function.update_self]
            exact hnumber
  | stopTimer timer =>
      obtain rfl := Option.some.inj h
      constructor
      · intro hok
        refine hs.stop ?_
        intro j hj
        obtain ⟨number, hnumber, hrunning⟩ := hs.of_active j hj
        by_cases hzero : timer = 0
        · subst hzero
          constructor
          · intro htimer
            rcases hplaced.used j 0 htimer with ⟨-, hj0⟩ | ⟨hne, -⟩
            · exact hj0
            · exact (hne rfl).elim
          · rintro rfl
            rcases hplaced.used _ number hnumber with ⟨rfl, -⟩ | ⟨-, hhigh⟩
            · exact hnumber
            · exact absurd hhigh (by simp [place])
        · have hnone := hok.resolve_left hzero
          constructor
          · intro htimer
            rw [htimer] at hnumber
            rw [← Option.some.inj hnumber, hnone] at hrunning
            cases hrunning
          · rintro rfl
            rcases hplaced.used _ number hnumber with ⟨-, hj0⟩ | ⟨-, hhigh⟩
            · exact (hzero (Fin.castLE_injective _ hj0)).elim
            · exact absurd hhigh (Nat.not_le_of_lt timer.isLt)
      · intro hright
        by_contra hnot
        simp only [InPlace, not_or] at hnot
        obtain ⟨hne, hruns⟩ := hnot
        obtain ⟨setting, hsetting⟩ := Option.ne_none_iff_exists'.1 hruns
        obtain ⟨j, hnumber, hj⟩ := hs.of_running timer setting hsetting
        have hji : j ≠ place timer := by
          rintro rfl
          rcases hplaced.used _ timer hnumber with ⟨hzero, -⟩ | ⟨-, hhigh⟩
          · exact hne hzero
          · exact absurd hhigh (Nat.not_le_of_lt timer.isLt)
        obtain ⟨number, hnumber', hrunning⟩ :=
          hright.of_active j (by simp only [stopTimer_ne hji]; exact hj)
        have hsame : number = timer := Option.some.inj (hnumber'.symm.trans hnumber)
        simp only [hsame, Function.update_self] at hrunning
        cases hrunning
  | expiry =>
      refine ⟨fun _ => ?_, fun _ => trivial⟩
      rcases TimerRun.step_expiry hplaced h with rfl | ⟨i, timer, -, hnumber, hactive, rfl⟩
      · exact hs
      · refine hs.stop ?_
        intro j hj
        constructor
        · intro htimer
          exact hs.unique j i hj hactive (htimer.trans hnumber.symm)
        · rintro rfl
          exact hnumber
  | tick seconds =>
      obtain rfl := Option.some.inj h
      exact ⟨fun _ => ⟨hs.of_active, hs.of_running, hs.unique⟩, fun _ => trivial⟩

/-- The handler that runs is that of a timer that should run, and its time is over. -/
theorem TimerRun.Right.goes_off {s : TimerRun} (hs : s.Right) {i : Fin MAX_TIMERS}
    (h : overdueTimer s.clock s.timers = some i) :
    ∃ timer, s.number i = some timer ∧ s.running timer = some (s.timers i).setting ∧
      (s.timers i).setting.endTime ≤ s.clock := by
  obtain ⟨hactive, hend⟩ := overdueTimer_expired h
  obtain ⟨timer, hnumber, hrunning⟩ := hs.of_active i hactive
  exact ⟨timer, hnumber, hrunning, hend⟩

/-- In every run that starts again and stops no running timer but timer 0, the table holds the
timers that should run, and the handler that runs is always that of one of them, when its time is
over. A
further command keeps the table right exactly when it is in place. -/
theorem program_timers_right {s : TimerRun}
    (h : Runs.Reaches TimerRun.step TimerRun.InPlace (fun s => ∃ clock, s = .start clock) s) :
    s.Right ∧
      (∀ i, overdueTimer s.clock s.timers = some i → ∃ timer, s.number i = some timer ∧
        s.running timer = some (s.timers i).setting ∧ (s.timers i).setting.endTime ≤ s.clock) ∧
      ∀ a s', s.step a = some s' → (s.InPlace a ↔ s'.Right) := by
  let inv : TimerRun → Prop := fun s => s.Right ∧ s.Placed
  have hinvariant : inv s := by
    refine h.invariant ?_ ?_
    · rintro _ ⟨clock, rfl⟩
      exact ⟨right_start clock, placed_start clock⟩
    · rintro s a s' ⟨hs, hplaced⟩ hok hstep
      exact ⟨(hs.step_iff hplaced hstep).1 hok, hplaced.step hstep⟩
  obtain ⟨hs, hplaced⟩ := hinvariant
  exact ⟨hs, fun i hoverdue => hs.goes_off hoverdue, fun a s' hstep => hs.step_iff hplaced hstep⟩

/-- Timers 1 and 2 are started, timer 2 goes off and is started again. -/
theorem program_timers_right_again :
    ∃ s, [TimerCommand.startTimer 1 5 7 [], .startTimer 2 3 9 [], .tick 3, .expiry,
        .startTimer 2 4 11 [], .tick 2].foldlM TimerRun.step (TimerRun.start 100) = some s ∧
      overdueTimer s.clock s.timers = some 10 ∧ s.Right ∧
      (∀ i, overdueTimer s.clock s.timers = some i → ∃ timer, s.number i = some timer ∧
        s.running timer = some (s.timers i).setting ∧ (s.timers i).setting.endTime ≤ s.clock) ∧
      ∀ a s', s.step a = some s' → (s.InPlace a ↔ s'.Right) := by
  have hadmits : Runs.Admits TimerRun.step TimerRun.InPlace (TimerRun.start 100)
      [.startTimer 1 5 7 [], .startTimer 2 3 9 [], .tick 3, .expiry, .startTimer 2 4 11 [],
        .tick 2] :=
    .cons (.inr rfl) rfl (.cons (.inr rfl) rfl (.cons trivial rfl (.cons trivial rfl
      (.cons (.inr rfl) rfl (.cons trivial rfl trivial)))))
  have hrun : ∃ s, [TimerCommand.startTimer 1 5 7 [], .startTimer 2 3 9 [], .tick 3, .expiry,
      .startTimer 2 4 11 [], .tick 2].foldlM TimerRun.step (TimerRun.start 100) = some s ∧
      overdueTimer s.clock s.timers = some 10 := ⟨_, rfl, rfl⟩
  obtain ⟨s, hs, hoverdue⟩ := hrun
  have hstart : Runs.Reaches TimerRun.step TimerRun.InPlace (fun s => ∃ clock, s = .start clock)
      (TimerRun.start 100) := .start ⟨100, rfl⟩
  exact ⟨s, hs, hoverdue, program_timers_right (hstart.admits hadmits hs)⟩

/-- Timer 1 is stopped, and its handler runs nevertheless. -/
theorem program_timers_not_always_right :
    ∃ s, Runs.Reaches TimerRun.step (fun _ _ => True) (fun s => ∃ clock, s = .start clock) s ∧
      s.running 1 = none ∧ ∃ i, overdueTimer s.clock s.timers = some i ∧ s.number i = some 1 := by
  have hrun : ∃ s, [TimerCommand.startTimer 1 5 7 [], .stopTimer 1, .tick 5].foldlM TimerRun.step
      (TimerRun.start 100) = some s ∧ s.running 1 = none ∧
      overdueTimer s.clock s.timers = some 10 ∧ s.number 10 = some 1 := ⟨_, rfl, rfl, rfl, rfl⟩
  obtain ⟨s, hrun, hstopped, hoverdue, hnumber⟩ := hrun
  exact ⟨s, Runs.Reaches.run (.start ⟨100, rfl⟩) hrun, hstopped, 10, hoverdue, hnumber⟩

end ScOpen
