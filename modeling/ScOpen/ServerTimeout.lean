import ScOpen.Timers

/-!
# The timeout of the server

The server sleeps until the first timer is over, but never for more than five minutes. The time is
set anew whenever a timer is started, and after each timer that goes off.
-/

namespace ScOpen

def calcTurn (t : ℕ) (timers : Timers) (found : ℤ × ℕ) (i : Fin MAX_TIMERS) : ℤ × ℕ :=
  if (timers i).active then
    (if found.1 < (timers i).endTime - t then found.1 else (timers i).endTime - t, found.2 + 1)
  else found

def calcMinTime (t : ℕ) (timers : Timers) : ℕ :=
  let found := (List.finRange MAX_TIMERS).foldl (calcTurn t timers) (60 * 5, 0)
  if found.2 ≠ 0 then if found.1 ≤ 0 then 1 else found.1.toNat else 0

structure TimerServer where
  timers : Timers
  timeoutValue : ℕ

def TimerServer.setTimeout (t : ℕ) (timers : Timers) : TimerServer := ⟨timers, calcMinTime t timers⟩

def TimerServer.startTimer (timerIdx seconds : ℤ) (programIdx : ℕ) (msg : Bytes) (t : ℕ)
    (s : TimerServer) : Option (Fin MAX_TIMERS × TimerServer) :=
  (ScOpen.startTimer timerIdx seconds programIdx msg t s.timers).map fun r =>
    (r.1, setTimeout t r.2)

/-- `timer_handler()`, with the timer that goes off. The program that is resumed at its index, with
its message, may start and stop timers itself. -/
def TimerServer.timerHandler (resume : ℕ → Bytes → Timers → Timers) (t : ℕ) (s : TimerServer) :
    Option (Fin MAX_TIMERS) × TimerServer :=
  match ScOpen.timerHandler t s.timers with
  | (none, timers) => (none, setTimeout t timers)
  | (some idx, timers) =>
      (some idx, setTimeout t (resume (timers idx).programIdx (timers idx).msg timers))

def Expired (t : ℕ) (timers : Timers) (i : Fin MAX_TIMERS) : Prop :=
  (timers i).active = true ∧ (timers i).endTime ≤ t

/-- The server does not wait without a timer, and does not sleep over the end of one. -/
def TimerServer.InTime (t : ℕ) (s : TimerServer) : Prop :=
  (s.timeoutValue = 0 ↔ ∀ i, (s.timers i).active = false) ∧
    ∀ i, (s.timers i).active = true →
      1 ≤ s.timeoutValue ∧ (s.timeoutValue : ℤ) ≤ max 1 (min 300 ((s.timers i).endTime - t))

section

variable {t : ℕ} {timers : Timers} {i : Fin MAX_TIMERS}

theorem calcTurn_eq (t : ℕ) (timers : Timers) :
    calcTurn t timers = Deadlines.soonestTurn (t : ℤ) (due timers) := by
  funext found i
  by_cases h : (timers i).active = true
  · rw [calcTurn, if_pos h, Deadlines.soonestTurn, due_of_active h, Option.elim_some]
  · rw [calcTurn, if_neg h, Deadlines.soonestTurn,
      due_of_not_active (eq_false_of_ne_true h), Option.elim_none]

/-! ## The timeout -/

theorem calcTurns_count (t : ℕ) (timers : Timers) :
    ((List.finRange MAX_TIMERS).foldl (calcTurn t timers) (60 * 5, 0)).2 = 0 ↔
      ∀ i, (timers i).active = false := by
  rw [calcTurn_eq, Deadlines.soonest_count, Nat.zero_add, List.countP_eq_zero]
  constructor
  · intro hnone i
    by_contra hactive
    refine hnone i (List.mem_finRange i) ?_
    rw [due_of_active (eq_true_of_ne_false hactive)]
    rfl
  · intro hidle i _
    rw [due_of_not_active (hidle i)]
    exact Bool.false_ne_true

theorem calcMinTime_eq_zero_iff (t : ℕ) (timers : Timers) :
    calcMinTime t timers = 0 ↔ ∀ i, (timers i).active = false := by
  rw [← calcTurns_count t, calcMinTime]
  split_ifs with hcount hover
  · exact ⟨(fun h => by cases h), fun h => absurd h hcount⟩
  · exact ⟨fun h => absurd h (by omega), fun h => absurd h hcount⟩
  · exact ⟨fun _ => not_not.1 hcount, fun _ => rfl⟩

theorem calcMinTime_le (h : (timers i).active = true) :
    (calcMinTime t timers : ℤ) ≤ max 1 (min 300 ((timers i).endTime - t)) := by
  obtain ⟨hfirst, hleast⟩ := @Deadlines.soonest_le _ _ _ _ (t : ℤ) (due timers)
    (List.finRange MAX_TIMERS) (60 * 5, 0)
  have hend := hleast i (List.mem_finRange i) _ (due_of_active h)
  rw [← calcTurn_eq] at hfirst hend
  rw [calcMinTime]
  split_ifs with hcount hover
  · exact le_max_left _ _
  · rw [Int.toNat_of_nonneg (not_le.1 hover).le]
    exact (le_min hfirst hend).trans (le_max_right _ _)
  · exact zero_le_one.trans (le_max_left _ _)

theorem TimerServer.setTimeout_inTime (t : ℕ) (timers : Timers) :
    (setTimeout t timers).InTime t := by
  refine ⟨calcMinTime_eq_zero_iff t timers, fun i hi => ⟨?_, calcMinTime_le hi⟩⟩
  rw [Nat.one_le_iff_ne_zero]
  intro hzero
  have hidle : (timers i).active = false := (calcMinTime_eq_zero_iff t timers).1 hzero i
  exact Bool.false_ne_true (hidle.symm.trans hi)

/-! ## Going off -/

theorem overdueTimer_some (h : overdueTimer t timers = some i) :
    Expired t timers i ∧ ∀ j, Expired t timers j → (timers i).endTime ≤ (timers j).endTime := by
  obtain ⟨e, -, hdue, hover, -, hleast⟩ := (overdueTimer_found t timers).of_some h
  obtain ⟨hactive, rfl⟩ := due_eq_some hdue
  exact ⟨⟨hactive, hover⟩, fun j hj =>
    hleast j (List.mem_finRange j) _ (due_of_active hj.1) hj.2⟩

theorem overdueTimer_none (h : overdueTimer t timers = none) : ¬∃ i, Expired t timers i := by
  rintro ⟨i, hactive, hover⟩
  have hall := (overdueTimer_found t timers).of_none h
  exact absurd hover (not_le.2 (hall i (List.mem_finRange i) _ (due_of_active hactive)))

/-- One timer goes off, and no expired one is overdue for longer. -/
theorem timerHandler_expired (h : ∃ i, Expired t timers i) :
    ∃ i, Expired t timers i ∧ (∀ j, Expired t timers j → (timers i).endTime ≤ (timers j).endTime) ∧
      timerHandler t timers = (some i, stopTimer i timers) := by
  cases hover : overdueTimer t timers with
  | none => exact absurd h (overdueTimer_none hover)
  | some i =>
      obtain ⟨hexpired, hmost⟩ := overdueTimer_some hover
      exact ⟨i, hexpired, hmost, by rw [timerHandler, hover]⟩

end

/-- The server's timeout is right after each timer that is started and after the timer handler, and
the handler lets exactly one expired timer go off, one that is overdue most, whatever the program
does then. -/
theorem timers_go_off_right (t : ℕ) :
    (∀ (timerIdx seconds : ℤ) (programIdx : ℕ) (msg : Bytes) (s s' : TimerServer)
      (i : Fin MAX_TIMERS), s.startTimer timerIdx seconds programIdx msg t = some (i, s') →
      s'.InTime t) ∧
    ∀ (resume : ℕ → Bytes → Timers → Timers) (s : TimerServer),
      (s.timerHandler resume t).2.InTime t ∧
      ((∃ i, Expired t s.timers i) → ∃ i, Expired t s.timers i ∧
        (∀ j, Expired t s.timers j → (t : ℤ) - (s.timers j).endTime ≤ t - (s.timers i).endTime) ∧
        (s.timerHandler resume t).1 = some i ∧
        (s.timerHandler resume t).2.timers = resume (s.timers i).programIdx (s.timers i).msg
          (Function.update s.timers i { s.timers i with active := false })) := by
  refine ⟨fun timerIdx seconds programIdx msg s s' i hstart => ?_, fun resume s => ⟨?_, ?_⟩⟩
  · obtain ⟨r, -, hr⟩ := Option.map_eq_some_iff.1 hstart
    cases hr
    exact TimerServer.setTimeout_inTime t r.2
  · rw [TimerServer.timerHandler]
    rcases timerHandler t s.timers with ⟨_ | idx, timers⟩
    · exact TimerServer.setTimeout_inTime t _
    · exact TimerServer.setTimeout_inTime t _
  · intro hexpired
    obtain ⟨i, hi, hmost, hhandler⟩ := timerHandler_expired hexpired
    refine ⟨i, hi, fun j hj => ?_, ?_, ?_⟩
    · have := hmost j hj
      omega
    · rw [TimerServer.timerHandler, hhandler]
    · rw [TimerServer.timerHandler, hhandler]
      dsimp only [TimerServer.setTimeout]
      rw [stopTimer_self]
      rfl

def twoTimers : TimerServer :=
  ⟨fun i => if i.val = 3 then ⟨true, 5, 11, []⟩
    else if i.val = 7 then ⟨true, 2, 13, []⟩ else ⟨false, 0, 0, []⟩, 1⟩

/-- At 10 timer 7 goes off, and timer 3 is left. -/
theorem timers_go_off_right_two :
    (twoTimers.timerHandler (fun _ _ timers => timers) 10).1 = some 7 ∧
      (twoTimers.timerHandler (fun _ _ timers => timers) 10).2.timers =
        Function.update twoTimers.timers 7 { twoTimers.timers 7 with active := false } ∧
      (twoTimers.timerHandler (fun _ _ timers => timers) 10).2.InTime 10 := by
  obtain ⟨-, hhandler⟩ := timers_go_off_right 10
  obtain ⟨hin, hgoes⟩ := hhandler (fun _ _ timers => timers) twoTimers
  obtain ⟨i, ⟨hactive, -⟩, hmost, hfirst, htimers⟩ := hgoes ⟨3, rfl, by decide⟩
  have hlate : (10 : ℤ) - 2 ≤ 10 - (twoTimers.timers i).endTime := hmost 7 ⟨rfl, by decide⟩
  have hseven : ∀ i : Fin MAX_TIMERS, (twoTimers.timers i).active = true →
      (10 : ℤ) - 2 ≤ 10 - (twoTimers.timers i).endTime → i = 7 := by decide
  obtain rfl := hseven i hactive hlate
  exact ⟨hfirst, htimers, hin⟩

end ScOpen
