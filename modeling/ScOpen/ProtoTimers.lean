import Mathlib.Algebra.Order.Group.Int
import Mathlib.Data.List.FinRange
import Mathlib.Logic.Function.Basic
import ScOpen.Deadlines
import ScOpen.Runs

/-!
# Protocol timers

The nine timers of the protocols share the one alarm of the process. It is armed for the earliest
end of a running timer, but never for more than five minutes; when it goes off, the running timer
that is overdue most is stopped, and the code that started it is resumed.
-/

namespace ScOpen

namespace ProtoTimers

abbrev MAX_TIMERS : ℕ := 9

/-- The place to resume is a number; `env_alrm` points to it. -/
structure ProtoTimer where
  running : Bool
  start : ℤ
  endTime : ℤ
  envAlrm : ℕ

abbrev Timers : Type := Fin MAX_TIMERS → ProtoTimer

def calcTurn (t : ℤ) (timers : Timers) (found : ℤ × ℕ) (i : Fin MAX_TIMERS) : ℤ × ℕ :=
  if (timers i).running then
    (if found.1 < (timers i).endTime - t then found.1 else (timers i).endTime - t, found.2 + 1)
  else found

def calcMinTime (t : ℤ) (timers : Timers) : ℕ :=
  let found := (List.finRange MAX_TIMERS).foldl (calcTurn t timers) (60 * 5, 0)
  if found.2 ≠ 0 then if found.1 ≤ 0 then 1 else found.1.toNat else 0

def overdueTurn (t : ℤ) (timers : Timers) (found : ℤ × Option (Fin MAX_TIMERS))
    (i : Fin MAX_TIMERS) : ℤ × Option (Fin MAX_TIMERS) :=
  if (timers i).running then
    if (timers i).endTime ≤ t then
      if found.1 ≤ t - (timers i).endTime then (t - (timers i).endTime, some i) else found
    else found
  else found

def overdueTimer (t : ℤ) (timers : Timers) : Option (Fin MAX_TIMERS) :=
  ((List.finRange MAX_TIMERS).foldl (overdueTurn t timers) (0, none)).2

def stopTimer (idx : Fin MAX_TIMERS) (timers : Timers) : Timers :=
  Function.update timers idx { timers idx with running := false }

/-- The clock, the timers, when the pending alarm goes off, and what the start of each timer that
succeeded last has handed in to be resumed. -/
structure Process where
  clock : ℤ
  timers : Timers
  alarm : Option ℤ
  startedBy : Fin MAX_TIMERS → Option ℕ

/-- `alarm(seconds)`: it takes the place of a pending one, and 0 seconds only cancel that. -/
def Process.setAlarm (s : Process) (seconds : ℕ) : Process :=
  { s with alarm := if seconds = 0 then none else some (s.clock + seconds) }

def Process.rearm (s : Process) (timers : Timers) : Process :=
  { s with timers := timers }.setAlarm (calcMinTime s.clock timers)

def startProtoTimer (seconds idx envAlrm : ℕ) (s : Process) : ℕ × Process :=
  if h : idx < MAX_TIMERS then
    if (s.timers ⟨idx, h⟩).running then (1, s)
    else (0, s.rearm
      (Function.update s.timers ⟨idx, h⟩ ⟨true, s.clock, s.clock + seconds, envAlrm⟩))
  else (1, s)

def stopProtoTimer (idx : ℕ) (s : Process) : ℕ × Process :=
  if h : idx < MAX_TIMERS then (0, s.rearm (stopTimer ⟨idx, h⟩ s.timers)) else (1, s)

/-- The handler of the alarm, with what it resumes. An alarm that comes before any end is not set
again. -/
def timeoutHandler (s : Process) : Option ℕ × Process :=
  match overdueTimer s.clock s.timers with
  | some idx => (some (s.timers idx).envAlrm, s.rearm (stopTimer idx s.timers))
  | none => (none, s)

inductive Call where
  | startProtoTimer (seconds idx envAlrm : ℕ)
  | stopProtoTimer (idx : ℕ)
  | tick (seconds : ℕ)
  | alarm

/-- A pending alarm is delivered at its time, or later. -/
def Process.step (s : Process) : Call → Option Process
  | .startProtoTimer seconds idx envAlrm =>
      match startProtoTimer seconds idx envAlrm s with
      | (0, s') => some { s' with
          startedBy := if h : idx < MAX_TIMERS then
            Function.update s.startedBy ⟨idx, h⟩ (some envAlrm) else s.startedBy }
      | (_ + 1, s') => some s'
  | .stopProtoTimer idx => some (stopProtoTimer idx s).2
  | .tick seconds => some { s with clock := s.clock + seconds }
  | .alarm =>
      match s.alarm with
      | some due => if due ≤ s.clock then some (timeoutHandler { s with alarm := none }).2 else none
      | none => none

def Process.Starts (s : Process) : Prop :=
  (∀ i, (s.timers i).running = false) ∧ s.alarm = none

def Process.Running (s : Process) (i : Fin MAX_TIMERS) : Prop := (s.timers i).running = true

def Process.Expired (s : Process) (i : Fin MAX_TIMERS) : Prop :=
  s.Running i ∧ (s.timers i).endTime ≤ s.clock

/-- An alarm is pending exactly when a timer runs. It goes off no later than at the first end, or
within a second when that is over. -/
def Process.Armed (s : Process) : Prop :=
  match s.alarm with
  | none => ∀ i, ¬ s.Running i
  | some due => (∃ i, s.Running i) ∧
      ((∀ i, s.Running i → due ≤ (s.timers i).endTime) ∨
        (∃ i, s.Expired i) ∧ due ≤ s.clock + 1)

/-- An alarm that is delivered now stops one expired timer only, and resumes what started it. -/
def Process.Resumes (s : Process) : Prop :=
  ∀ due, s.alarm = some due → due ≤ s.clock → (∃ i, s.Expired i) →
    ∃ i envAlrm s', s.Expired i ∧ s.startedBy i = some envAlrm ∧
      timeoutHandler { s with alarm := none } = (some envAlrm, s') ∧
      s'.timers = stopTimer i s.timers

/-- An alarm comes only when a running timer's time is over. -/
def Process.InTime (s : Process) : Call → Prop
  | .alarm => ∃ i, s.Expired i
  | _ => True

/-! ## Arming -/

def due (timers : Timers) (i : Fin MAX_TIMERS) : Option ℤ :=
  if (timers i).running then some (timers i).endTime else none

theorem due_of_running {timers : Timers} {i : Fin MAX_TIMERS} (h : (timers i).running = true) :
    due timers i = some (timers i).endTime := by rw [due, if_pos h]

theorem due_of_not_running {timers : Timers} {i : Fin MAX_TIMERS}
    (h : (timers i).running = false) : due timers i = none := by
  rw [due, h]
  rfl

theorem due_eq_some {timers : Timers} {i : Fin MAX_TIMERS} {e : ℤ} (h : due timers i = some e) :
    (timers i).running = true ∧ (timers i).endTime = e := by
  by_cases hrunning : (timers i).running = true
  · rw [due_of_running hrunning] at h
    exact ⟨hrunning, Option.some.inj h⟩
  · rw [due_of_not_running (eq_false_of_ne_true hrunning)] at h
    cases h

theorem calcTurn_eq (t : ℤ) (timers : Timers) :
    calcTurn t timers = Deadlines.soonestTurn t (due timers) := by
  funext found i
  by_cases h : (timers i).running = true
  · rw [calcTurn, if_pos h, Deadlines.soonestTurn, due_of_running h, Option.elim_some]
  · rw [calcTurn, if_neg h, Deadlines.soonestTurn,
      due_of_not_running (eq_false_of_ne_true h), Option.elim_none]

theorem overdueTurn_eq (t : ℤ) (timers : Timers) :
    overdueTurn t timers = Deadlines.overdueTurn t (due timers) := by
  funext found i
  by_cases h : (timers i).running = true
  · rw [overdueTurn, if_pos h, Deadlines.overdueTurn, due_of_running h, Option.elim_some]
  · rw [overdueTurn, if_neg h, Deadlines.overdueTurn,
      due_of_not_running (eq_false_of_ne_true h), Option.elim_none]

theorem calcTurns_count (t : ℤ) (timers : Timers) :
    ((List.finRange MAX_TIMERS).foldl (calcTurn t timers) (60 * 5, 0)).2 = 0 ↔
      ∀ i, (timers i).running = false := by
  rw [calcTurn_eq, Deadlines.soonest_count, Nat.zero_add, List.countP_eq_zero]
  constructor
  · intro hnone i
    by_contra hrunning
    refine hnone i (List.mem_finRange i) ?_
    rw [due_of_running (eq_true_of_ne_false hrunning)]
    rfl
  · intro hidle i _
    rw [due_of_not_running (hidle i)]
    exact Bool.false_ne_true

theorem calcMinTime_idle {t : ℤ} {timers : Timers} (h : ∀ i, (timers i).running = false) :
    calcMinTime t timers = 0 := by
  rw [calcMinTime, if_neg]
  exact not_not.2 ((calcTurns_count t timers).2 h)

/-- With a running timer the alarm is due in five minutes, at its end, or within a second when that
is over. -/
theorem calcMinTime_running {t : ℤ} {timers : Timers} {i : Fin MAX_TIMERS}
    (hi : (timers i).running = true) :
    0 < calcMinTime t timers ∧
      ((∀ j, (timers j).running = true → t + calcMinTime t timers ≤ (timers j).endTime) ∧
          (calcMinTime t timers = 300 ∨
            ∃ j, (timers j).running = true ∧ (timers j).endTime ≤ t + calcMinTime t timers) ∨
        (∃ j, (timers j).running = true ∧ (timers j).endTime ≤ t) ∧ calcMinTime t timers = 1) := by
  obtain ⟨hle, hleast⟩ :=
    @Deadlines.soonest_le _ _ _ _ t (due timers) (List.finRange MAX_TIMERS) (60 * 5, 0)
  have hsome := @Deadlines.soonest_eq _ _ _ _ t (due timers) (List.finRange MAX_TIMERS) (60 * 5, 0)
  rw [← calcTurn_eq] at hle hleast hsome
  have hcount : ((List.finRange MAX_TIMERS).foldl (calcTurn t timers) (60 * 5, 0)).2 ≠ 0 := by
    intro hzero
    rw [(calcTurns_count t timers).1 hzero i] at hi
    cases hi
  have hmin : calcMinTime t timers =
      if ((List.finRange MAX_TIMERS).foldl (calcTurn t timers) (60 * 5, 0)).1 ≤ 0 then 1
      else ((List.finRange MAX_TIMERS).foldl (calcTurn t timers) (60 * 5, 0)).1.toNat :=
    if_pos hcount
  generalize ((List.finRange MAX_TIMERS).foldl (calcTurn t timers) (60 * 5, 0)).1 = m at *
  by_cases hm : m ≤ 0
  · rw [if_pos hm] at hmin
    obtain h300 | ⟨j, -, e, hdue, hend⟩ := hsome
    · rw [h300] at hm
      exact absurd hm (by decide)
    · obtain ⟨hj, rfl⟩ := due_eq_some hdue
      exact ⟨hmin ▸ one_pos, .inr ⟨⟨j, hj, by omega⟩, hmin⟩⟩
  · rw [if_neg hm] at hmin
    refine ⟨by omega, .inl ⟨?_, ?_⟩⟩
    · intro j hj
      have := hleast j (List.mem_finRange j) _ (due_of_running hj)
      omega
    · obtain h300 | ⟨j, -, e, hdue, hend⟩ := hsome
      · exact .inl (by omega)
      · obtain ⟨hj, rfl⟩ := due_eq_some hdue
        exact .inr ⟨j, hj, by omega⟩

theorem Process.rearm_armed (s : Process) (timers : Timers) : (s.rearm timers).Armed := by
  by_cases hidle : ∀ i, (timers i).running = false
  · have halarm : (s.rearm timers).alarm = none := if_pos (calcMinTime_idle hidle)
    rw [Armed, halarm]
    intro i hi
    exact Bool.false_ne_true ((hidle i).symm.trans hi)
  · obtain ⟨i, hi⟩ := not_forall.1 hidle
    have hi : (timers i).running = true := Bool.not_eq_false _ ▸ hi
    obtain ⟨hpos, hdue⟩ := calcMinTime_running (t := s.clock) hi
    have halarm : (s.rearm timers).alarm = some (s.clock + calcMinTime s.clock timers) :=
      if_neg hpos.ne'
    rw [Armed, halarm]
    refine ⟨⟨i, hi⟩, ?_⟩
    rcases hdue with ⟨hdue, -⟩ | ⟨hover, hone⟩
    · exact .inl hdue
    · exact .inr ⟨hover, by rw [hone]; exact le_refl _⟩

/-! ## Going off -/

theorem overdueTimer_found (t : ℤ) (timers : Timers) :
    Deadlines.Found t (due timers) (List.finRange MAX_TIMERS)
      ((List.finRange MAX_TIMERS).foldl (overdueTurn t timers) (0, none)) := by
  rw [overdueTurn_eq]
  exact Deadlines.overdue_found _

theorem overdueTimer_expired {t : ℤ} {timers : Timers} {i : Fin MAX_TIMERS}
    (h : overdueTimer t timers = some i) :
    (timers i).running = true ∧ (timers i).endTime ≤ t := by
  obtain ⟨e, -, hdue, hover, -⟩ := (overdueTimer_found t timers).of_some h
  obtain ⟨hrunning, rfl⟩ := due_eq_some hdue
  exact ⟨hrunning, hover⟩

theorem Process.overdueTimer_none_iff (s : Process) :
    overdueTimer s.clock s.timers = none ↔ ¬ ∃ i, s.Expired i := by
  constructor
  · rintro h ⟨i, hrunning, hend⟩
    have hall := (overdueTimer_found s.clock s.timers).of_none h
    exact absurd hend (not_le.2 (hall i (List.mem_finRange i) _ (due_of_running hrunning)))
  · intro h
    by_contra hsome
    obtain ⟨i, hi⟩ := Option.ne_none_iff_exists'.1 hsome
    exact h ⟨i, overdueTimer_expired hi⟩

/-- What goes off is expired, and it alone is stopped. -/
theorem Process.timeoutHandler_expired {s : Process} (h : ∃ i, s.Expired i) :
    ∃ i, s.Expired i ∧
      timeoutHandler s = (some (s.timers i).envAlrm, s.rearm (stopTimer i s.timers)) := by
  have hsome : overdueTimer s.clock s.timers ≠ none := fun hnone =>
    s.overdueTimer_none_iff.1 hnone h
  obtain ⟨i, hi⟩ := Option.ne_none_iff_exists'.1 hsome
  exact ⟨i, overdueTimer_expired hi, by rw [timeoutHandler, hi]⟩

theorem Process.timeoutHandler_early {s : Process} (h : ¬ ∃ i, s.Expired i) :
    timeoutHandler s = (none, s) := by
  rw [timeoutHandler, s.overdueTimer_none_iff.2 h]

/-! ## Steps -/

theorem Process.step_startProtoTimer (s : Process) (seconds idx envAlrm : ℕ) :
    s.step (.startProtoTimer seconds idx envAlrm) = some s ∨
      ∃ i : Fin MAX_TIMERS, ¬ s.Running i ∧ s.step (.startProtoTimer seconds idx envAlrm) =
        some { s.rearm (Function.update s.timers i ⟨true, s.clock, s.clock + seconds, envAlrm⟩) with
          startedBy := Function.update s.startedBy i (some envAlrm) } := by
  by_cases h : idx < MAX_TIMERS
  · by_cases hrunning : (s.timers ⟨idx, h⟩).running = true
    · left
      rw [step, startProtoTimer, dif_pos h, if_pos hrunning]
    · right
      refine ⟨⟨idx, h⟩, hrunning, ?_⟩
      simp only [step, startProtoTimer, dif_pos h, if_neg hrunning]
  · left
    rw [step, startProtoTimer, dif_neg h]

theorem Process.step_stopProtoTimer (s : Process) (idx : ℕ) :
    s.step (.stopProtoTimer idx) = some s ∨
      ∃ i, s.step (.stopProtoTimer idx) = some (s.rearm (stopTimer i s.timers)) := by
  by_cases h : idx < MAX_TIMERS
  · right
    exact ⟨⟨idx, h⟩, by rw [step, stopProtoTimer, dif_pos h]⟩
  · left
    rw [step, stopProtoTimer, dif_neg h]

theorem Process.step_alarm {s s' : Process} (h : s.step .alarm = some s') :
    ∃ due, s.alarm = some due ∧ due ≤ s.clock ∧
      s' = (timeoutHandler { s with alarm := none }).2 := by
  simp only [step] at h
  split at h
  · rename_i due hdue
    split_ifs at h with htime
    exact ⟨due, hdue, htime, (Option.some.inj h).symm⟩
  · cases h

theorem Process.Armed.tick {s : Process} (hs : s.Armed) (seconds : ℕ) :
    { s with clock := s.clock + seconds }.Armed := by
  have hlater : s.clock ≤ s.clock + seconds := Int.le_add_of_nonneg_right (Int.natCast_nonneg _)
  unfold Armed at hs ⊢
  cases halarm : s.alarm with
  | none =>
      rw [halarm] at hs
      exact hs
  | some due =>
      rw [halarm] at hs
      obtain ⟨hrunning, hdue⟩ := hs
      refine ⟨hrunning, ?_⟩
      rcases hdue with hdue | ⟨⟨i, hi, hend⟩, hdue⟩
      · exact .inl hdue
      · exact .inr ⟨⟨i, hi, hend.trans hlater⟩, hdue.trans (Int.add_le_add_right hlater 1)⟩

/-- The alarm stays armed exactly when none comes before an end. -/
theorem Process.Armed.step_iff {s s' : Process} (hs : s.Armed) {a : Call}
    (h : s.step a = some s') : s.InTime a ↔ s'.Armed := by
  cases a with
  | startProtoTimer seconds idx envAlrm =>
      refine iff_of_true trivial ?_
      rcases s.step_startProtoTimer seconds idx envAlrm with hsame | ⟨i, -, hstarted⟩
      · obtain rfl := Option.some.inj (hsame.symm.trans h)
        exact hs
      · obtain rfl := Option.some.inj (hstarted.symm.trans h)
        exact s.rearm_armed _
  | stopProtoTimer idx =>
      refine iff_of_true trivial ?_
      rcases s.step_stopProtoTimer idx with hsame | ⟨i, hstopped⟩
      · obtain rfl := Option.some.inj (hsame.symm.trans h)
        exact hs
      · obtain rfl := Option.some.inj (hstopped.symm.trans h)
        exact s.rearm_armed _
  | tick seconds =>
      obtain rfl := Option.some.inj h
      exact iff_of_true trivial (hs.tick seconds)
  | alarm =>
      obtain ⟨due, hdue, -, rfl⟩ := step_alarm h
      constructor
      · intro hexpired
        obtain ⟨i, -, hhandler⟩ := timeoutHandler_expired (s := { s with alarm := none }) hexpired
        rw [hhandler]
        exact rearm_armed _ _
      · intro harmed
        by_contra hearly
        rw [timeoutHandler_early (s := { s with alarm := none }) hearly] at harmed
        rw [Armed, hdue] at hs
        obtain ⟨⟨i, hi⟩, -⟩ := hs
        exact harmed i hi

/-- What a running timer resumes is what has started it. -/
def Process.Started (s : Process) : Prop :=
  ∀ i, s.Running i → s.startedBy i = some (s.timers i).envAlrm

theorem Process.Started.stop {s : Process} (hs : s.Started) (i : Fin MAX_TIMERS) :
    (s.rearm (stopTimer i s.timers)).Started := by
  intro j hj
  have hj : (stopTimer i s.timers j).running = true := hj
  have hne : j ≠ i := by
    rintro rfl
    rw [stopTimer, Function.update_self] at hj
    cases hj
  rw [stopTimer, Function.update_of_ne hne] at hj
  calc s.startedBy j = some (s.timers j).envAlrm := hs j hj
    _ = some (stopTimer i s.timers j).envAlrm := by rw [stopTimer, Function.update_of_ne hne]

theorem Process.Started.step {s s' : Process} (hs : s.Started) {a : Call}
    (h : s.step a = some s') : s'.Started := by
  cases a with
  | startProtoTimer seconds idx envAlrm =>
      rcases s.step_startProtoTimer seconds idx envAlrm with hsame | ⟨i, -, hstarted⟩
      · obtain rfl := Option.some.inj (hsame.symm.trans h)
        exact hs
      · obtain rfl := Option.some.inj (hstarted.symm.trans h)
        intro j hj
        change Function.update s.startedBy i _ j = some (Function.update s.timers i _ j).envAlrm
        by_cases hji : j = i
        · rw [hji, Function.update_self, Function.update_self]
        · rw [Function.update_of_ne hji, Function.update_of_ne hji]
          refine hs j ?_
          have hj : (Function.update s.timers i _ j).running = true := hj
          rwa [Function.update_of_ne hji] at hj
  | stopProtoTimer idx =>
      rcases s.step_stopProtoTimer idx with hsame | ⟨i, hstopped⟩
      · obtain rfl := Option.some.inj (hsame.symm.trans h)
        exact hs
      · obtain rfl := Option.some.inj (hstopped.symm.trans h)
        exact hs.stop i
  | tick seconds =>
      obtain rfl := Option.some.inj h
      exact hs
  | alarm =>
      obtain ⟨due, -, -, rfl⟩ := step_alarm h
      by_cases hexpired : ∃ i, s.Expired i
      · obtain ⟨i, -, hhandler⟩ := timeoutHandler_expired (s := { s with alarm := none }) hexpired
        rw [hhandler]
        exact Started.stop (s := { s with alarm := none }) hs i
      · rw [timeoutHandler_early (s := { s with alarm := none }) hexpired]
        exact hs

theorem Process.Started.resumes {s : Process} (hs : s.Started) : s.Resumes := by
  intro due _ _ hexpired
  obtain ⟨i, hi, hhandler⟩ := timeoutHandler_expired (s := { s with alarm := none }) hexpired
  exact ⟨i, _, _, hi, hs i hi.1, hhandler, rfl⟩

/-! ## Runs -/

theorem Process.Starts.armed {s : Process} (hs : s.Starts) : s.Armed := by
  rw [Armed, hs.2]
  intro i hi
  exact Bool.false_ne_true ((hs.1 i).symm.trans hi)

theorem Process.Starts.started {s : Process} (hs : s.Starts) : s.Started :=
  fun i hi => absurd ((hs.1 i).symm.trans hi) Bool.false_ne_true

/-- In every run in which no alarm comes before an end, the alarm is armed for the timers that run,
and one that comes resumes the code that started an expired one. A further call keeps the alarm
armed exactly when it is not an alarm that comes early. -/
theorem proto_alarms_armed {s : Process}
    (h : Runs.Reaches Process.step Process.InTime Process.Starts s) :
    s.Armed ∧ s.Resumes ∧ ∀ a s', s.step a = some s' → (s.InTime a ↔ s'.Armed) := by
  let inv : Process → Prop := fun s => s.Armed ∧ s.Started
  have hinvariant : inv s := by
    refine h.invariant ?_ ?_
    · intro s hs
      exact ⟨hs.armed, hs.started⟩
    · rintro s a s' ⟨harmed, hstarted⟩ hok hstep
      exact ⟨(harmed.step_iff hstep).1 hok, hstarted.step hstep⟩
  obtain ⟨harmed, hstarted⟩ := hinvariant
  exact ⟨harmed, hstarted.resumes, fun a s' hstep => harmed.step_iff hstep⟩

def idle : Process where
  clock := 1000
  timers := fun _ => ⟨false, 0, 0, 0⟩
  alarm := none
  startedBy := fun _ => none

theorem idle_starts : idle.Starts := ⟨fun _ => rfl, rfl⟩

/-- Timer 2 is started. -/
theorem proto_alarms_armed_once :
    ∃ s, idle.step (.startProtoTimer 5 2 7) = some s ∧ s.alarm = some 1005 ∧ s.Armed ∧ s.Resumes ∧
      ∀ a s', s.step a = some s' → (s.InTime a ↔ s'.Armed) :=
  ⟨_, rfl, by decide, proto_alarms_armed
    (.next (.start idle_starts) (a := .startProtoTimer 5 2 7) trivial rfl)⟩

/-- The alarm of a timer of 400 seconds comes after 300 and is not set again. -/
theorem proto_alarms_not_always_armed :
    ∃ s, Runs.Reaches Process.step (fun _ _ => True) Process.Starts s ∧
      s.Running 2 ∧ s.alarm = none ∧ ¬ s.Armed := by
  have hrun : ∃ s, [Call.startProtoTimer 400 2 7, .tick 300, .alarm].foldlM Process.step idle =
      some s ∧ (s.timers 2).running = true ∧ s.alarm = none := ⟨_, rfl, by decide, by decide⟩
  obtain ⟨s, hs, hrunning, halarm⟩ := hrun
  refine ⟨s, Runs.Reaches.run (.start idle_starts) hs, hrunning, halarm, ?_⟩
  intro harmed
  rw [Process.Armed, halarm] at harmed
  exact harmed 2 hrunning

/-! ## Short timeouts -/

def Process.Soon (s : Process) : Prop :=
  (∀ i, s.Running i → (s.timers i).endTime ≤ s.clock + 300) ∧
    ∀ due, s.alarm = some due → ∃ i, s.Running i ∧ (s.timers i).endTime ≤ due

def Call.Short : Call → Prop
  | .startProtoTimer seconds _ _ => seconds ≤ 300
  | _ => True

theorem Process.rearm_soon {s : Process} {timers : Timers}
    (h : ∀ i, (timers i).running = true → (timers i).endTime ≤ s.clock + 300) :
    (s.rearm timers).Soon := by
  refine ⟨h, ?_⟩
  intro due hdue
  have hdue : (if calcMinTime s.clock timers = 0 then none
      else some (s.clock + calcMinTime s.clock timers)) = some due := hdue
  split_ifs at hdue with hzero
  obtain rfl := Option.some.inj hdue
  have hsome : ∃ i, (timers i).running = true := by
    by_contra! hidle
    exact hzero (calcMinTime_idle fun i => Bool.eq_false_iff.2 (hidle i))
  obtain ⟨i, hi⟩ := hsome
  obtain ⟨-, ⟨hleast, h300 | ⟨j, hj, hend⟩⟩ | ⟨⟨j, hj, hend⟩, hone⟩⟩ :=
    calcMinTime_running (t := s.clock) hi
  · refine ⟨i, hi, ?_⟩
    have := h i hi
    rw [h300]
    exact this
  · exact ⟨j, hj, hend⟩
  · refine ⟨j, hj, ?_⟩
    rw [hone]
    exact hend.trans (Int.le_add_of_nonneg_right Int.one_nonneg)

theorem Process.Soon.start {s : Process} (hs : s.Soon) (i : Fin MAX_TIMERS) {seconds : ℕ}
    (hseconds : seconds ≤ 300) (envAlrm : ℕ) :
    (s.rearm (Function.update s.timers i ⟨true, s.clock, s.clock + seconds, envAlrm⟩)).Soon := by
  apply rearm_soon
  intro j hj
  by_cases hji : j = i
  · rw [hji, Function.update_self]
    exact Int.add_le_add_left (Int.ofNat_le.2 hseconds) s.clock
  · rw [Function.update_of_ne hji] at hj ⊢
    exact hs.1 j hj

theorem Process.Soon.stop {s : Process} (hs : s.Soon) (i : Fin MAX_TIMERS) :
    (s.rearm (stopTimer i s.timers)).Soon := by
  apply rearm_soon
  intro j hj
  by_cases hji : j = i
  · rw [hji, stopTimer, Function.update_self] at hj
    cases hj
  · rw [stopTimer, Function.update_of_ne hji] at hj ⊢
    exact hs.1 j hj

theorem Process.Soon.inTime {s s' : Process} (hs : s.Soon) {a : Call} (h : s.step a = some s') :
    s.InTime a := by
  cases a with
  | alarm =>
      obtain ⟨due, hdue, htime, -⟩ := step_alarm h
      obtain ⟨i, hi, hend⟩ := hs.2 due hdue
      exact ⟨i, hi, hend.trans htime⟩
  | _ => trivial

theorem Process.Soon.step {s s' : Process} (hs : s.Soon) {a : Call} (ha : a.Short)
    (h : s.step a = some s') : s'.Soon := by
  have hintime := hs.inTime h
  cases a with
  | startProtoTimer seconds idx envAlrm =>
      rcases s.step_startProtoTimer seconds idx envAlrm with hsame | ⟨i, -, hstarted⟩
      · obtain rfl := Option.some.inj (hsame.symm.trans h)
        exact hs
      · obtain rfl := Option.some.inj (hstarted.symm.trans h)
        exact hs.start i ha envAlrm
  | stopProtoTimer idx =>
      rcases s.step_stopProtoTimer idx with hsame | ⟨i, hstopped⟩
      · obtain rfl := Option.some.inj (hsame.symm.trans h)
        exact hs
      · obtain rfl := Option.some.inj (hstopped.symm.trans h)
        exact hs.stop i
  | tick seconds =>
      obtain rfl := Option.some.inj h
      refine ⟨fun i hi => (hs.1 i hi).trans ?_, hs.2⟩
      exact Int.add_le_add_right (Int.le_add_of_nonneg_right (Int.natCast_nonneg _)) 300
  | alarm =>
      obtain ⟨due, -, -, rfl⟩ := step_alarm h
      obtain ⟨i, -, hhandler⟩ := timeoutHandler_expired (s := { s with alarm := none }) hintime
      rw [hhandler]
      exact rearm_soon fun j hj => (hs.stop i).1 j hj

/-- When no timeout is longer than five minutes, the alarm is always armed, and does not come before
a timer has expired. -/
theorem short_timeouts_armed {s : Process}
    (h : Runs.Reaches Process.step (fun _ a => a.Short) Process.Starts s) :
    s.Armed ∧ s.Resumes ∧ ∀ due, s.alarm = some due → due ≤ s.clock → ∃ i, s.Expired i := by
  let inv : Process → Prop := fun s => s.Armed ∧ s.Started ∧ s.Soon
  have hinvariant : inv s := by
    refine h.invariant ?_ ?_
    · intro s hs
      refine ⟨hs.armed, hs.started, ?_, ?_⟩
      · exact fun i hi => absurd ((hs.1 i).symm.trans hi) Bool.false_ne_true
      · exact fun due hdue => absurd (hs.2.symm.trans hdue) (Option.some_ne_none due).symm
    · rintro s a s' ⟨harmed, hstarted, hsoon⟩ hshort hstep
      exact ⟨(harmed.step_iff hstep).1 (hsoon.inTime hstep), hstarted.step hstep,
        hsoon.step hshort hstep⟩
  obtain ⟨harmed, hstarted, hsoon⟩ := hinvariant
  refine ⟨harmed, hstarted.resumes, fun due hdue htime => ?_⟩
  obtain ⟨i, hi, hend⟩ := hsoon.2 due hdue
  exact ⟨i, hi, hend.trans htime⟩

/-- Timers 2 and 5 run, the alarm comes for the first of them and is set for the other one. -/
theorem short_timeouts_armed_two : ∃ s,
    [Call.startProtoTimer 5 2 7, .startProtoTimer 300 5 8, .tick 5, .alarm].foldlM Process.step
      idle = some s ∧ s.alarm = some 1300 ∧ s.Armed ∧ s.Resumes ∧
      ∀ due, s.alarm = some due → due ≤ s.clock → ∃ i, s.Expired i := by
  have hrun : ∃ s, [Call.startProtoTimer 5 2 7, .startProtoTimer 300 5 8, .tick 5,
      .alarm].foldlM Process.step idle = some s ∧ s.alarm = some 1300 := ⟨_, rfl, by decide⟩
  obtain ⟨s, hs, halarm⟩ := hrun
  have hshort : Runs.Admits Process.step (fun _ a => Call.Short a) idle
      [Call.startProtoTimer 5 2 7, .startProtoTimer 300 5 8, .tick 5, .alarm] := by
    refine .cons ?_ rfl (.cons ?_ rfl (.cons trivial rfl (.cons trivial rfl trivial)))
    · unfold Call.Short
      decide
    · unfold Call.Short
      decide
  exact ⟨s, hs, halarm, short_timeouts_armed ((Runs.Reaches.start idle_starts).admits hshort hs)⟩

end ProtoTimers

end ScOpen
