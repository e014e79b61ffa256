import ScOpen.Hsms
import ScOpen.ProtoTimers

/-!
# Proto timer 8 in `recv_hsmsI()`

Each read of a message is timed by proto timer 8, which shares the alarm of the process with the
other proto timers. A read ends with bytes, with an error, or when the alarm resumes the place that
has started timer 8.
-/

namespace ScOpen

open ProtoTimers (Process startProtoTimer stopProtoTimer timeoutHandler overdueTimer)

/-! ## The loops with the timers of the process -/

/-- The receiving end of a connection with the timers of its process; `wait` is how many seconds
each read takes. -/
structure TimedLine where
  unread : Bytes
  event : ℕ → ReadEvent
  wait : ℕ → ℕ
  reads : ℕ
  process : Process

inductive TimedRead where
  | got (data : Bytes) (line : TimedLine)
  | failed (line : TimedLine)
  | expired (stale : UInt8) (line : TimedLine)
  | away

/-- `start_proto_timer(t8, 8, &timer_t8)`, whatever it returns. -/
def TimedLine.startTimer8 (t8 timerT8 : ℕ) (line : TimedLine) : TimedLine :=
  { line with process := (startProtoTimer t8 8 timerT8 line.process).2 }

def TimedLine.stopTimer8 (line : TimedLine) : TimedLine :=
  { line with process := (stopProtoTimer 8 line.process).2 }

/-- Once a read is over. -/
def TimedLine.waited (line : TimedLine) : TimedLine :=
  { line with
    reads := line.reads + 1
    process := { line.process with clock := line.process.clock + line.wait line.reads } }

def TimedLine.alarm (line : TimedLine) : TimedLine :=
  { line with process := (timeoutHandler { line.process with alarm := none }).2 }

/-- `my_readx()`, and `my_readc()` for `len = 1`. -/
def TimedLine.myReadx (line : TimedLine) (len : ℕ) : TimedRead :=
  match line.event line.reads with
  | .fails => .failed line.waited
  | .expires stale =>
      if overdueTimer line.waited.process.clock line.waited.process.timers = some 8 then
        .expired stale line.waited.alarm
      else .away
  | .gives k =>
      if line.unread = [] then .away
      else .got (line.unread.take (min len (max 1 k)))
        { line.waited with unread := line.unread.drop (min len (max 1 k)) }

def TimedRead.after (c : Bytes) : TimedRead → TimedRead
  | .got cs line => .got (c ++ cs) line
  | r => r

/-- The loops over the length bytes and over the header bytes. The second does not stop the timer
when the read returns 1. -/
def TimedLine.recvBytes (t8 timerT8 : ℕ) (header : Bool) : ℕ → TimedLine → TimedRead
  | 0, line => .got [] line
  | m + 1, line =>
      match (line.startTimer8 t8 timerT8).myReadx 1 with
      | .failed line => .failed (if header then line else line.stopTimer8)
      | .expired stale line => .expired stale (if header then line else line.stopTimer8)
      | .away => .away
      | .got c line => (recvBytes t8 timerT8 header m line.stopTimer8).after c

/-- The line when the function returns; `none` when it does not. -/
abbrev Returned : Type := Option TimedLine

theorem TimedLine.myReadx_unread_lt {line line' : TimedLine} {len : ℕ} {data : Bytes}
    (hlen : 0 < len) (h : line.myReadx len = .got data line') :
    line'.unread.length < line.unread.length := by
  unfold myReadx at h
  split at h
  · cases h
  · split at h <;> cases h
  · split at h
    · cases h
    · rename_i hne
      cases h
      have hpos : 0 < line.unread.length := List.length_pos_of_ne_nil hne
      rw [List.length_drop]
      omega

theorem TimedLine.myReadx_expired {line line' : TimedLine} {len : ℕ} {stale : UInt8}
    (h : line.myReadx len = .expired stale line') : line'.unread = line.unread := by
  unfold myReadx at h
  split at h
  · cases h
  · split at h <;> cases h
    rfl
  · split at h <;> cases h

def TimedLine.recvBody (t8 timerT8 i : ℕ) (line : TimedLine) : Returned :=
  if i = 0 then some line
  else
    match _h : (line.startTimer8 t8 timerT8).myReadx maxRead with
    | .expired _ line' => recvBody t8 timerT8 (sub32 i 1) line'.stopTimer8
    | .failed line => some line.stopTimer8
    | .away => none
    | .got data line' => recvBody t8 timerT8 (sub32 i data.length) line'.stopTimer8
termination_by (line.unread.length, i)
decreasing_by
  · have hunread : line'.unread = line.unread :=
      @TimedLine.myReadx_expired (line.startTimer8 t8 timerT8) line' maxRead _ _h
    have hunread : line'.stopTimer8.unread = line.unread := hunread
    rw [hunread]
    exact Prod.Lex.right _ (sub32_one_lt (by assumption))
  · exact Prod.Lex.left _ _ (@TimedLine.myReadx_unread_lt (line.startTimer8 t8 timerT8) line'
      maxRead data (by decide) _h)

def TimedLine.recvHsmsI (t8 timerT8 : ℕ) (line : TimedLine) : Returned :=
  match line.recvBytes t8 timerT8 false 4 with
  | .failed line => some line
  | .expired _ line => some line
  | .away => none
  | .got theBytes line =>
      match line.recvBytes t8 timerT8 true 10 with
      | .failed line => some line
      | .expired _ line => some line
      | .away => none
      | .got _ line => line.recvBody t8 timerT8 (sub32 (leValue (swap theBytes)) 10)

def TimedLine.Timed (line : TimedLine) : Prop := line.process.Running 8

/-! ## The timer -/

section

variable {t8 timerT8 : ℕ} {line line' : TimedLine}

theorem TimedLine.startTimer8_timed (t8 timerT8 : ℕ) (line : TimedLine) :
    (line.startTimer8 t8 timerT8).Timed := by
  have h8 : 8 < ProtoTimers.MAX_TIMERS := by decide
  rw [Timed, startTimer8, startProtoTimer, dif_pos h8]
  by_cases hrunning : (line.process.timers ⟨8, h8⟩).running = true
  · rw [if_pos hrunning]
    exact hrunning
  · rw [if_neg hrunning]
    have hself : Function.update line.process.timers ⟨8, h8⟩ ⟨true, line.process.clock,
        line.process.clock + t8, timerT8⟩ ⟨8, h8⟩ = _ := Function.update_self _ _ _
    exact congrArg ProtoTimers.ProtoTimer.running hself

theorem stopTimer_notRunning (idx : Fin ProtoTimers.MAX_TIMERS) (s : Process) :
    ¬(s.rearm (ProtoTimers.stopTimer idx s.timers)).Running idx := by
  have hself : ProtoTimers.stopTimer idx s.timers idx =
      { s.timers idx with running := false } := Function.update_self _ _ _
  intro hrunning
  have hrunning : (ProtoTimers.stopTimer idx s.timers idx).running = true := hrunning
  rw [hself] at hrunning
  cases hrunning

theorem TimedLine.stopTimer8_timed (line : TimedLine) : ¬line.stopTimer8.Timed := by
  have h8 : 8 < ProtoTimers.MAX_TIMERS := by decide
  rw [Timed, stopTimer8, stopProtoTimer, dif_pos h8]
  exact stopTimer_notRunning _ _

theorem TimedLine.alarm_timed
    (h : overdueTimer line.process.clock line.process.timers = some 8) : ¬line.alarm.Timed := by
  rw [Timed, alarm, timeoutHandler]
  dsimp only
  rw [h]
  exact stopTimer_notRunning 8 { line.process with alarm := none }

/-! ## The outcomes -/

def TimedLine.Gives (line : TimedLine) (k : ℕ) : Prop :=
  k ≤ line.unread.length ∧ ∀ j < k, ∃ n, line.event (line.reads + j) = .gives n

def TimedLine.FailsAt (line : TimedLine) (k : ℕ) : Prop :=
  line.Gives k ∧ line.event (line.reads + k) = .fails

def TimedLine.Behind (line line' : TimedLine) (k : ℕ) : Prop :=
  line'.unread = line.unread.drop k ∧ line'.reads = line.reads + k ∧ line'.event = line.event

section

variable {k m n : ℕ}

theorem TimedLine.Gives.first (h : line.Gives (k + 1)) :
    line.unread ≠ [] ∧ ∃ n, line.event line.reads = .gives n :=
  ⟨List.ne_nil_of_length_pos (by have := h.1; omega), h.2 0 (Nat.succ_pos k)⟩

theorem TimedLine.gives_one (hunread : line.unread ≠ []) (h : line.event line.reads = .gives n) :
    line.Gives 1 := by
  refine ⟨List.length_pos_of_ne_nil hunread, fun j hj => ?_⟩
  obtain rfl := Nat.lt_one_iff.1 hj
  exact ⟨n, h⟩

theorem TimedLine.gives_add (hline : line.Gives m) (h : line.Behind line' m) :
    line.Gives (m + k) ↔ line'.Gives k := by
  obtain ⟨hlength, hevents⟩ := hline
  obtain ⟨hunread, hreads, hevent⟩ := h
  rw [Gives, Gives, hunread, hreads, hevent, List.length_drop]
  constructor
  · rintro ⟨hmore, hall⟩
    refine ⟨by omega, fun j hj => ?_⟩
    rw [Nat.add_assoc]
    exact hall (m + j) (by omega)
  · rintro ⟨hmore, hall⟩
    refine ⟨by omega, fun j hj => ?_⟩
    by_cases hjm : j < m
    · exact hevents j hjm
    · have hnext := hall (j - m) (by omega)
      rwa [Nat.add_assoc, Nat.add_sub_cancel' (not_lt.1 hjm)] at hnext

theorem TimedLine.failsAt_add (hline : line.Gives m) (h : line.Behind line' m) :
    line.FailsAt (m + k) ↔ line'.FailsAt k := by
  rw [FailsAt, FailsAt, gives_add hline h, h.2.1, h.2.2, Nat.add_assoc]

theorem TimedLine.Behind.succ {line'' : TimedLine} (h : line.Behind line' 1)
    (h' : line'.Behind line'' k) : line.Behind line'' (1 + k) := by
  obtain ⟨hunread, hreads, hevent⟩ := h
  obtain ⟨hunread', hreads', hevent'⟩ := h'
  refine ⟨?_, ?_, hevent'.trans hevent⟩
  · rw [hunread', hunread, List.drop_drop]
  · omega

end

def TimedLine.next (t8 timerT8 : ℕ) (line : TimedLine) : TimedLine :=
  TimedLine.stopTimer8
    { (line.startTimer8 t8 timerT8).waited with unread := line.unread.drop 1 }

theorem TimedLine.next_behind (t8 timerT8 : ℕ) (line : TimedLine) :
    line.Behind (line.next t8 timerT8) 1 := ⟨rfl, rfl, rfl⟩

theorem TimedLine.recvBytes_gives {n : ℕ} (t8 timerT8 : ℕ) (header : Bool) (m : ℕ)
    (hunread : line.unread ≠ []) (h : line.event line.reads = .gives n) :
    line.recvBytes t8 timerT8 header (m + 1) =
      ((line.next t8 timerT8).recvBytes t8 timerT8 header m).after (line.unread.take 1) := by
  have hone : min 1 (max 1 n) = 1 := by omega
  have hread : (line.startTimer8 t8 timerT8).myReadx 1 = .got (line.unread.take 1)
      { (line.startTimer8 t8 timerT8).waited with unread := line.unread.drop 1 } := by
    have hevent : (line.startTimer8 t8 timerT8).event (line.startTimer8 t8 timerT8).reads =
        .gives n := h
    have hunread' : ¬(line.startTimer8 t8 timerT8).unread = [] := hunread
    simp only [myReadx, hevent, if_neg hunread', hone]
    rfl
  rw [recvBytes, hread]
  rfl

theorem TimedLine.recvBytes_fails (t8 timerT8 : ℕ) (header : Bool) (m : ℕ)
    (h : line.event line.reads = .fails) :
    ∃ line', line.recvBytes t8 timerT8 header (m + 1) = .failed line' ∧
      (line'.Timed ↔ header = true) := by
  have hread : (line.startTimer8 t8 timerT8).myReadx 1 =
      .failed (line.startTimer8 t8 timerT8).waited := by
    have hevent : (line.startTimer8 t8 timerT8).event (line.startTimer8 t8 timerT8).reads =
        .fails := h
    simp only [myReadx, hevent]
  rw [recvBytes, hread]
  refine ⟨_, rfl, ?_⟩
  cases header with
  | false => exact ⟨fun htimed => absurd htimed (stopTimer8_timed _), fun hfalse => by cases hfalse⟩
  | true => exact ⟨fun _ => rfl, fun _ => startTimer8_timed t8 timerT8 line⟩

theorem TimedLine.recvBytes_expires {stale : UInt8} (t8 timerT8 : ℕ) (header : Bool) (m : ℕ)
    (h : line.event line.reads = .expires stale) :
    (∃ line', line.recvBytes t8 timerT8 header (m + 1) = .expired stale line' ∧ ¬line'.Timed) ∨
      line.recvBytes t8 timerT8 header (m + 1) = .away := by
  have hevent : (line.startTimer8 t8 timerT8).event (line.startTimer8 t8 timerT8).reads =
      .expires stale := h
  rw [recvBytes, myReadx]
  simp only [hevent]
  by_cases hdue : overdueTimer (line.startTimer8 t8 timerT8).waited.process.clock
      (line.startTimer8 t8 timerT8).waited.process.timers = some 8
  · rw [if_pos hdue]
    refine .inl ⟨_, rfl, ?_⟩
    cases header with
    | false => exact stopTimer8_timed _
    | true => exact alarm_timed hdue
  · rw [if_neg hdue]
    exact .inr rfl

/-- How the loops end. -/
theorem TimedLine.recvBytes_cases (t8 timerT8 : ℕ) (header : Bool) (m : ℕ) (line : TimedLine) :
    (∃ cs line', line.recvBytes t8 timerT8 header m = .got cs line' ∧ line.Gives m ∧
      line.Behind line' m ∧ (m ≠ 0 → ¬line'.Timed)) ∨
    (∃ line' k, line.recvBytes t8 timerT8 header m = .failed line' ∧ k < m ∧ line.FailsAt k ∧
      (line'.Timed ↔ header = true)) ∨
    (∃ stale line', line.recvBytes t8 timerT8 header m = .expired stale line' ∧ ¬line'.Timed) ∨
    line.recvBytes t8 timerT8 header m = .away := by
  induction m generalizing line with
  | zero =>
      exact .inl ⟨[], line, rfl, ⟨Nat.zero_le _, fun j hj => absurd hj (Nat.not_lt_zero j)⟩,
        ⟨rfl, rfl, rfl⟩, fun h => absurd rfl h⟩
  | succ m ih =>
      cases hevent : line.event line.reads with
      | fails =>
          obtain ⟨line', hfailed, htimed⟩ := recvBytes_fails t8 timerT8 header m hevent
          exact .inr (.inl ⟨line', 0, hfailed, Nat.succ_pos m,
            ⟨⟨Nat.zero_le _, fun j hj => absurd hj (Nat.not_lt_zero j)⟩, hevent⟩, htimed⟩)
      | expires stale =>
          exact .inr (.inr ((recvBytes_expires t8 timerT8 header m hevent).imp_left
            fun hexpired => ⟨stale, hexpired⟩))
      | gives n =>
          by_cases hunread : line.unread = []
          · have hread : (line.startTimer8 t8 timerT8).myReadx 1 = .away := by
              have hevent' : (line.startTimer8 t8 timerT8).event
                  (line.startTimer8 t8 timerT8).reads = .gives n := hevent
              have hunread' : (line.startTimer8 t8 timerT8).unread = [] := hunread
              simp only [myReadx, hevent', if_pos hunread']
            exact .inr (.inr (.inr (by rw [recvBytes, hread])))
          have hbehind := line.next_behind t8 timerT8
          have hfirst := gives_one hunread hevent
          have hgives := recvBytes_gives t8 timerT8 header m hunread hevent
          rcases ih (line.next t8 timerT8) with ⟨cs, line', hgot, hall, hline', htimed⟩ |
            ⟨line', k, hfailed, hk, hat, htimed⟩ | ⟨stale, line', hexpired, htimed⟩ | haway
          · rw [Nat.add_comm m 1] at hgives ⊢
            refine .inl ⟨_, line', by rw [hgives, hgot]; rfl, (gives_add hfirst hbehind).2 hall,
              hbehind.succ hline', fun _ => ?_⟩
            cases m with
            | zero =>
                cases hgot
                exact stopTimer8_timed _
            | succ m => exact htimed (Nat.succ_ne_zero m)
          · exact .inr (.inl ⟨line', 1 + k, by rw [hgives, hfailed]; rfl, by omega,
              (failsAt_add hfirst hbehind).2 hat, htimed⟩)
          · exact .inr (.inr (.inl ⟨stale, line', by rw [hgives, hexpired]; rfl, htimed⟩))
          · exact .inr (.inr (.inr (by rw [hgives, haway]; rfl)))

theorem TimedLine.Gives.recvBytes (t8 timerT8 : ℕ) (header : Bool) {m : ℕ} (h : line.Gives m) :
    ∃ cs line', line.recvBytes t8 timerT8 header m = .got cs line' ∧ line.Behind line' m := by
  induction m generalizing line with
  | zero => exact ⟨[], line, rfl, rfl, rfl, rfl⟩
  | succ m ih =>
      obtain ⟨hunread, n, hevent⟩ := h.first
      have hbehind := line.next_behind t8 timerT8
      have hfirst := recvBytes_gives t8 timerT8 header m hunread hevent
      rw [Nat.add_comm m 1] at h hfirst ⊢
      obtain ⟨cs, line', hgot, hline'⟩ := ih ((gives_add (gives_one hunread hevent) hbehind).1 h)
      exact ⟨_, line', by rw [hfirst, hgot]; rfl, hbehind.succ hline'⟩

theorem TimedLine.FailsAt.recvBytes (t8 timerT8 : ℕ) (header : Bool) {k m : ℕ} (hk : k < m)
    (h : line.FailsAt k) :
    ∃ line', line.recvBytes t8 timerT8 header m = .failed line' ∧
      (line'.Timed ↔ header = true) := by
  induction m generalizing line k with
  | zero => exact absurd hk (Nat.not_lt_zero k)
  | succ m ih =>
      cases k with
      | zero => exact recvBytes_fails t8 timerT8 header m h.2
      | succ k =>
          obtain ⟨hunread, n, hevent⟩ := h.1.first
          have hbehind := line.next_behind t8 timerT8
          obtain ⟨line', hfailed, htimed⟩ := ih (Nat.lt_of_succ_lt_succ hk)
            ((failsAt_add (gives_one hunread hevent) hbehind).1 (Nat.add_comm k 1 ▸ h))
          exact ⟨line', by rw [recvBytes_gives t8 timerT8 header m hunread hevent, hfailed]; rfl,
            htimed⟩

/-- The loop over the body stops the timer on every way out. -/
theorem TimedLine.recvBody_timed {i : ℕ} (hline : ¬line.Timed)
    (h : line.recvBody t8 timerT8 i = some line') : ¬line'.Timed := by
  fun_induction recvBody t8 timerT8 i line with
  | case1 line =>
      cases h
      exact hline
  | case2 i line hi stale line₁ hread ih => exact ih (stopTimer8_timed _) h
  | case3 i line hi line₁ hread =>
      cases h
      exact stopTimer8_timed _
  | case4 i line hi hread => cases h
  | case5 i line hi data line₁ hread ih => exact ih (stopTimer8_timed _) h

def TimedLine.HeaderFails (line : TimedLine) : Prop := ∃ k, 4 ≤ k ∧ k < 14 ∧ line.FailsAt k

theorem TimedLine.HeaderFails.timed (t8 timerT8 : ℕ) (h : line.HeaderFails) :
    ∃ line', line.recvHsmsI t8 timerT8 = some line' ∧ line'.Timed := by
  obtain ⟨k, hlow, hhigh, hfails⟩ := h
  have hfour : line.Gives 4 := ⟨hlow.trans hfails.1.1, fun j hj => hfails.1.2 j (by omega)⟩
  obtain ⟨cs, line₁, hgot, hbehind⟩ := hfour.recvBytes t8 timerT8 false
  have hat : line₁.FailsAt (k - 4) :=
    (TimedLine.failsAt_add hfour hbehind).1 (by rwa [Nat.add_sub_cancel' hlow])
  obtain ⟨line', hfailed, htimed⟩ := hat.recvBytes t8 timerT8 true (show k - 4 < 10 by omega)
  refine ⟨line', ?_, htimed.2 rfl⟩
  rw [TimedLine.recvHsmsI, hgot]
  dsimp only
  rw [hfailed]

end

/-- Timer 8 is not running when a message or an error is returned, exactly when no read of a header
byte fails. -/
theorem timer8_stopped_iff (t8 timerT8 : ℕ) (line : TimedLine) :
    (∀ line', line.recvHsmsI t8 timerT8 = some line' → ¬line'.Timed) ↔ ¬line.HeaderFails := by
  constructor
  · intro hstopped hheader
    obtain ⟨line', hreturn, htimed⟩ := hheader.timed t8 timerT8
    exact hstopped line' hreturn htimed
  · intro hheader line' hreturn
    rw [TimedLine.recvHsmsI] at hreturn
    rcases line.recvBytes_cases t8 timerT8 false 4 with ⟨cs, line₁, hgot, hfour, hbehind, htimed⟩ |
      ⟨line₁, k, hfailed, -, -, htimed⟩ | ⟨stale, line₁, hexpired, htimed⟩ | haway
    · rw [hgot] at hreturn
      dsimp only at hreturn
      rcases line₁.recvBytes_cases t8 timerT8 true 10 with ⟨ds, line₂, hgot, -, -, htimed⟩ |
        ⟨line₂, k, hfailed, hk, hat, -⟩ | ⟨stale, line₂, hexpired, htimed⟩ | haway
      · rw [hgot] at hreturn
        exact TimedLine.recvBody_timed (htimed (by decide)) hreturn
      · exact absurd ⟨4 + k, by omega, by omega, (TimedLine.failsAt_add hfour hbehind).2 hat⟩ hheader
      · rw [hexpired] at hreturn
        cases hreturn
        exact htimed
      · rw [haway] at hreturn
        cases hreturn
    · rw [hfailed] at hreturn
      cases hreturn
      exact fun h => Bool.false_ne_true (htimed.1 h)
    · rw [hexpired] at hreturn
      cases hreturn
      exact htimed
    · rw [haway] at hreturn
      cases hreturn

def failingLine (k : ℕ) : TimedLine where
  unread := List.replicate k 0
  event j := if j < k then .gives 1 else .fails
  wait _ := 0
  reads := 0
  process := ⟨0, fun _ => ⟨false, 0, 0, 0⟩, none, fun _ => none⟩

theorem failingLine_failsAt (k : ℕ) : (failingLine k).FailsAt k := by
  refine ⟨⟨(List.length_replicate).ge, fun j hj => ⟨1, ?_⟩⟩, ?_⟩
  · exact if_pos (by rwa [failingLine, Nat.zero_add])
  · exact if_neg (by rw [failingLine, Nat.zero_add]; exact lt_irrefl k)

/-- A read error right behind the length bytes leaves the timer running. -/
theorem timer8_not_always_stopped :
    ¬∀ (t8 timerT8 : ℕ) (line line' : TimedLine),
      line.recvHsmsI t8 timerT8 = some line' → ¬line'.Timed := by
  intro h
  have hheader : (failingLine 4).HeaderFails := ⟨4, le_rfl, by decide, failingLine_failsAt 4⟩
  obtain ⟨line', hreturn, htimed⟩ := hheader.timed 10 0
  exact h 10 0 (failingLine 4) line' hreturn htimed

/-! ## Without the clock -/

def TimedLine.untimed (line : TimedLine) : HsmsLine :=
  ⟨line.unread, line.event, line.reads, (line.process.timers 8).running⟩

def RecvResult.line : RecvResult → Option HsmsLine
  | .received _ _ _ line => some line
  | .error line => some line
  | .blocked => none

def TimedRead.untimed : TimedRead → Option ReadResult
  | .got data line => some (.got data line.untimed)
  | .failed line => some (.failed line.untimed)
  | .expired stale line => some (.expired stale line.untimed)
  | .away => none

section

variable {t8 timerT8 : ℕ} {line line' : TimedLine}

theorem TimedLine.untimed_of_timed (h : line.Timed) :
    line.untimed = ⟨line.unread, line.event, line.reads, true⟩ := by
  rw [untimed, show (line.process.timers 8).running = true from h]

theorem TimedLine.untimed_of_not_timed (h : ¬line.Timed) :
    line.untimed = ⟨line.unread, line.event, line.reads, false⟩ := by
  rw [untimed, show (line.process.timers 8).running = false from eq_false_of_ne_true h]

theorem TimedLine.untimed_startTimer8 (t8 timerT8 : ℕ) (line : TimedLine) :
    (line.startTimer8 t8 timerT8).untimed = line.untimed.startTimer8 :=
  untimed_of_timed (startTimer8_timed t8 timerT8 line)

theorem TimedLine.untimed_stopTimer8 (line : TimedLine) :
    line.stopTimer8.untimed = line.untimed.stopTimer8 :=
  untimed_of_not_timed line.stopTimer8_timed

theorem TimedLine.untimed_myReadx {len : ℕ} {r : ReadResult}
    (h : (line.myReadx len).untimed = some r) : ScOpen.myReadx line.untimed len = r := by
  cases hevent : line.event line.reads with
  | fails =>
      simp only [myReadx, hevent] at h
      cases h
      simp only [ScOpen.myReadx, untimed, hevent]
      rfl
  | expires stale =>
      simp only [myReadx, hevent] at h
      by_cases hdue : overdueTimer line.waited.process.clock line.waited.process.timers = some 8
      · rw [if_pos hdue] at h
        cases h
        rw [untimed_of_not_timed (alarm_timed hdue)]
        simp only [ScOpen.myReadx, untimed, hevent]
        rfl
      · rw [if_neg hdue] at h
        cases h
  | gives k =>
      simp only [myReadx, hevent] at h
      by_cases hunread : line.unread = []
      · rw [if_pos hunread] at h
        cases h
      · rw [if_neg hunread] at h
        cases h
        simp only [ScOpen.myReadx, untimed, hevent]
        exact if_neg hunread

/-- The loops without the clock end in the same way. -/
theorem TimedLine.untimed_recvBytes {header : Bool} {m : ℕ} {r : ReadResult}
    (h : (line.recvBytes t8 timerT8 header m).untimed = some r) :
    ScOpen.recvBytes (!header) m line.untimed = r := by
  induction m generalizing line r with
  | zero =>
      cases h
      rfl
  | succ m ih =>
      rw [recvBytes] at h
      rw [ScOpen.recvBytes, ← untimed_startTimer8 t8 timerT8]
      cases hread : (line.startTimer8 t8 timerT8).myReadx 1 with
      | failed line₁ =>
          rw [hread] at h
          cases h
          rw [untimed_myReadx (by rw [hread]; rfl)]
          cases header with
          | false => exact congrArg ReadResult.failed line₁.untimed_stopTimer8.symm
          | true => rfl
      | expired stale line₁ =>
          rw [hread] at h
          cases h
          rw [untimed_myReadx (by rw [hread]; rfl)]
          cases header with
          | false => exact congrArg (ReadResult.expired stale) line₁.untimed_stopTimer8.symm
          | true => rfl
      | away =>
          rw [hread] at h
          cases h
      | got c line₁ =>
          rw [hread] at h
          rw [untimed_myReadx (by rw [hread]; rfl)]
          dsimp only at h ⊢
          rw [← untimed_stopTimer8]
          cases hrest : line₁.stopTimer8.recvBytes t8 timerT8 header m with
          | away =>
              rw [hrest] at h
              cases h
          | _ =>
              rw [hrest] at h
              cases h
              rw [ih (by rw [hrest]; rfl)]

theorem TimedLine.untimed_recvBody {i : ℕ} (hbody : line.recvBody t8 timerT8 i = some line')
    (header body : Bytes) (counts : List (ℕ × ℕ)) :
    (ScOpen.recvBody header i body counts line.untimed).line = some line'.untimed := by
  fun_induction recvBody t8 timerT8 i line generalizing body counts with
  | case1 line =>
      cases hbody
      rw [ScOpen.recvBody, if_pos rfl]
      rfl
  | case2 i line hi stale line₁ hread ih =>
      have hread' := @untimed_myReadx _ _ (.expired stale line₁.untimed) (by rw [hread]; rfl)
      rw [untimed_startTimer8] at hread'
      rw [recvBody_eq hi, hread']
      dsimp only
      rw [← untimed_stopTimer8]
      exact ih hbody _ _
  | case3 i line hi line₁ hread =>
      cases hbody
      have hread' := @untimed_myReadx _ _ (.failed line₁.untimed) (by rw [hread]; rfl)
      rw [untimed_startTimer8] at hread'
      rw [recvBody_eq hi, hread', untimed_stopTimer8]
      rfl
  | case4 i line hi hread => cases hbody
  | case5 i line hi data line₁ hread ih =>
      have hread' := @untimed_myReadx _ _ (.got data line₁.untimed) (by rw [hread]; rfl)
      rw [untimed_startTimer8] at hread'
      rw [recvBody_of_got hi _ _ _ hread', ← untimed_stopTimer8]
      exact ih hbody _ _

/-- Without the clock the function returns with the same line. -/
theorem TimedLine.untimed_recvHsmsI (h : line.recvHsmsI t8 timerT8 = some line') :
    (ScOpen.recvHsmsI line.untimed).line = some line'.untimed := by
  have hlength : ∀ {q : TimedRead} {r : ReadResult}, line.recvBytes t8 timerT8 false 4 = q →
      q.untimed = some r → ScOpen.recvBytes true 4 line.untimed = r := fun hq hr =>
    @untimed_recvBytes t8 timerT8 line false 4 _ (hq ▸ hr)
  have hheader : ∀ {line : TimedLine} {q : TimedRead} {r : ReadResult},
      line.recvBytes t8 timerT8 true 10 = q → q.untimed = some r →
        ScOpen.recvBytes false 10 line.untimed = r := fun {line _ _} hq hr =>
    @untimed_recvBytes t8 timerT8 line true 10 _ (hq ▸ hr)
  rw [recvHsmsI] at h
  rw [ScOpen.recvHsmsI]
  cases hfirst : line.recvBytes t8 timerT8 false 4 with
  | away =>
      rw [hfirst] at h
      cases h
  | failed line₁ =>
      rw [hfirst] at h
      cases h
      rw [hlength hfirst rfl]
      rfl
  | expired stale line₁ =>
      rw [hfirst] at h
      cases h
      rw [hlength hfirst rfl]
      rfl
  | got theBytes line₁ =>
      rw [hfirst] at h
      rw [hlength hfirst rfl]
      dsimp only at h ⊢
      cases hsecond : line₁.recvBytes t8 timerT8 true 10 with
      | away =>
          rw [hsecond] at h
          cases h
      | failed line₂ =>
          rw [hsecond] at h
          cases h
          rw [hheader hsecond rfl]
          rfl
      | expired stale line₂ =>
          rw [hsecond] at h
          cases h
          rw [hheader hsecond rfl]
          rfl
      | got header line₂ =>
          rw [hsecond] at h
          rw [hheader hsecond rfl]
          exact untimed_recvBody h _ _ _

end

end ScOpen
