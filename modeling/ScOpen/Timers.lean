import Mathlib.Algebra.Order.Group.Int
import Mathlib.Data.List.FinRange
import Mathlib.Logic.Function.Basic
import ScOpen.ByteOrder
import ScOpen.Deadlines

/-!
# Timers

The table of timers. The first ten are for the program's own timers, the others are handed out to
whoever asks for the next free one; the timer handler lets one expired timer go off at a time, the
one that is overdue most.
-/

namespace ScOpen

abbrev MAX_TIMERS : ℕ := 50

structure Timer where
  active : Bool
  endTime : ℤ
  programIdx : ℕ
  msg : Bytes

abbrev Timers : Type := Fin MAX_TIMERS → Timer

def freeTimer (timers : Timers) : Option (Fin MAX_TIMERS) :=
  (List.finRange MAX_TIMERS).find? fun i => decide (10 ≤ i.val) && !(timers i).active

/-- `start_timer()` at clock `t`; it ends the process when no timer is free or the message is too
long. Any index but 0 gets the next free timer. -/
def startTimer (timerIdx seconds : ℤ) (programIdx : ℕ) (msg : Bytes) (t : ℕ) (timers : Timers) :
    Option (Fin MAX_TIMERS × Timers) :=
  if ¬ (timerIdx = -1 ∨ 0 ≤ timerIdx ∧ timerIdx < 10) then none
  else
    match if timerIdx = 0 then some 0 else freeTimer timers with
    | none => none
    | some i =>
        if 128 ≤ msg.length then none
        else some (i, Function.update timers i ⟨true, t + seconds, programIdx, msg⟩)

def firstTimer : Fin MAX_TIMERS := 0

def stopTimer (idx : Fin MAX_TIMERS) (timers : Timers) : Timers :=
  Function.update timers idx { timers idx with active := false }

def overdueTurn (t : ℕ) (timers : Timers) (found : ℤ × Option (Fin MAX_TIMERS))
    (i : Fin MAX_TIMERS) : ℤ × Option (Fin MAX_TIMERS) :=
  if (timers i).active then
    if (timers i).endTime ≤ t then
      if found.1 ≤ t - (timers i).endTime then (t - (timers i).endTime, some i) else found
    else found
  else found

def overdueTimer (t : ℕ) (timers : Timers) : Option (Fin MAX_TIMERS) :=
  ((List.finRange MAX_TIMERS).foldl (overdueTurn t timers) (0, none)).2

/-- `timer_handler()` at clock `t`: the timer that goes off. The program is then resumed at its
index. -/
def timerHandler (t : ℕ) (timers : Timers) : Option (Fin MAX_TIMERS) × Timers :=
  match overdueTimer t timers with
  | none => (none, timers)
  | some idx => (some idx, stopTimer idx timers)

/-! ## What the functions do -/

theorem freeTimer_free {timers : Timers} {i : Fin MAX_TIMERS} (h : freeTimer timers = some i) :
    10 ≤ i.val ∧ (timers i).active = false := by
  have hfound := List.find?_some h
  simpa only [Bool.and_eq_true, decide_eq_true_eq, Bool.not_eq_true'] using hfound

/-- Timer 0 is started in its place, any other one in the next free place. -/
theorem startTimer_place {timerIdx seconds : ℤ} {programIdx t : ℕ} {msg : Bytes}
    {timers timers' : Timers} {i : Fin MAX_TIMERS}
    (h : startTimer timerIdx seconds programIdx msg t timers = some (i, timers')) :
    (timerIdx = 0 ∧ i = 0 ∨ timerIdx ≠ 0 ∧ 10 ≤ i.val ∧ (timers i).active = false) ∧
      timers' = Function.update timers i ⟨true, t + seconds, programIdx, msg⟩ := by
  simp only [startTimer] at h
  split at h
  · cases h
  · split at h
    · cases h
    · rename_i j hplace
      split at h
      · cases h
      · obtain ⟨rfl, rfl⟩ := Prod.mk.inj (Option.some.inj h)
        refine ⟨?_, rfl⟩
        by_cases hzero : timerIdx = 0
        · rw [if_pos hzero] at hplace
          exact .inl ⟨hzero, (Option.some.inj hplace).symm⟩
        · rw [if_neg hzero] at hplace
          exact .inr ⟨hzero, freeTimer_free hplace⟩

/-- The next free timer is started. -/
theorem startTimer_next {seconds : ℤ} {programIdx t : ℕ} {msg : Bytes} {timers timers' : Timers}
    {i : Fin MAX_TIMERS} (h : startTimer (-1) seconds programIdx msg t timers = some (i, timers')) :
    (timers i).active = false ∧
      timers' = Function.update timers i ⟨true, t + seconds, programIdx, msg⟩ := by
  obtain ⟨hplace, htimers⟩ := startTimer_place h
  rcases hplace with ⟨hzero, -⟩ | ⟨-, -, hfree⟩
  · cases hzero
  · exact ⟨hfree, htimers⟩

@[simp]
theorem stopTimer_self (idx : Fin MAX_TIMERS) (timers : Timers) :
    stopTimer idx timers idx = { timers idx with active := false } := Function.update_self ..

theorem stopTimer_ne {idx k : Fin MAX_TIMERS} (h : k ≠ idx) (timers : Timers) :
    stopTimer idx timers k = timers k := Function.update_of_ne h ..

@[simp]
theorem stopTimer_endTime (idx k : Fin MAX_TIMERS) (timers : Timers) :
    (stopTimer idx timers k).endTime = (timers k).endTime := by
  by_cases h : k = idx
  · rw [h, stopTimer_self]
  · rw [stopTimer_ne h]

/-! ## Going off -/

def due (timers : Timers) (i : Fin MAX_TIMERS) : Option ℤ :=
  if (timers i).active then some (timers i).endTime else none

section

variable {t : ℕ} {timers : Timers} {i : Fin MAX_TIMERS}

theorem due_of_active (h : (timers i).active = true) : due timers i = some (timers i).endTime := by
  rw [due, if_pos h]

theorem due_of_not_active (h : (timers i).active = false) : due timers i = none := by
  rw [due, h]
  rfl

theorem due_eq_some {e : ℤ} (h : due timers i = some e) :
    (timers i).active = true ∧ (timers i).endTime = e := by
  by_cases hactive : (timers i).active = true
  · rw [due_of_active hactive] at h
    exact ⟨hactive, Option.some.inj h⟩
  · rw [due_of_not_active (eq_false_of_ne_true hactive)] at h
    cases h

theorem overdueTurn_eq (t : ℕ) (timers : Timers) :
    overdueTurn t timers = Deadlines.overdueTurn (t : ℤ) (due timers) := by
  funext found i
  by_cases h : (timers i).active = true
  · rw [overdueTurn, if_pos h, Deadlines.overdueTurn, due_of_active h, Option.elim_some]
  · rw [overdueTurn, if_neg h, Deadlines.overdueTurn,
      due_of_not_active (eq_false_of_ne_true h), Option.elim_none]

theorem overdueTimer_found (t : ℕ) (timers : Timers) :
    Deadlines.Found (t : ℤ) (due timers) (List.finRange MAX_TIMERS)
      ((List.finRange MAX_TIMERS).foldl (overdueTurn t timers) (0, none)) := by
  rw [overdueTurn_eq]
  exact Deadlines.overdue_found _

/-- A timer that goes off was running, and its time is over. -/
theorem overdueTimer_expired (h : overdueTimer t timers = some i) :
    (timers i).active = true ∧ (timers i).endTime ≤ t := by
  obtain ⟨e, -, hdue, hover, -⟩ := (overdueTimer_found t timers).of_some h
  obtain ⟨hactive, rfl⟩ := due_eq_some hdue
  exact ⟨hactive, hover⟩

end

end ScOpen
