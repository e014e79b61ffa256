import ScOpen.SecsStations

/-!
# Two stations that send at any time

One of two stations has the R-bit. Whenever they start to send their messages, both at once or one
after the other, and in whatever order they act, every message is received once and in order, no
byte is taken for something else, and every run ends.
-/

namespace ScOpen

open Dialogues Settling

def weight (s : Line LineStation LineByte) : ℕ :=
  2 * (s.left.unsent.length + s.right.unsent.length) +
    (if s.left.job.isSome then 1 else 0) + (if s.right.job.isSome then 1 else 0)

def LineStation.resting (opts : SecsOptions) (unsent : List SecsMessage)
    (received : List ReceivedMessage) (sent : List SecsMessage) : LineStation where
  opts := opts
  unsent := unsent
  job := none
  received := received
  results := List.replicate sent.length 0
  mixed := false

/-! ## Stretches of a run -/

def enq : LineByte := (.handshake, ENQ)

theorem leads_take {q q' : LineProcess JobResult} {b : LineByte} {events : List (Event LineByte)}
    (h : Process.Goes LineRead.byte q (.takes b :: events) q') (l r : LineStation)
    (toRight toLeft : List LineByte) :
    ∃ q₁, Process.Goes LineRead.byte q₁ events q' ∧
      Leads LineQuiet ⟨l, r.work q, b :: toRight, toLeft⟩ ⟨l, r.work q₁, toRight, toLeft⟩ := by
  cases h with
  | @read role c next _ _ h =>
      have htake := (r.takes role next c).right l toRight toLeft
      rw [List.append_nil] at htake
      exact ⟨_, h, htake⟩

theorem leads_transfer {p p' q q' : LineProcess JobResult} {events : List (Event LineByte)}
    (h : Process.Goes LineRead.byte p events p')
    (h' : Process.Goes LineRead.byte q (events.map .other) q') (l r : LineStation) :
    Leads LineQuiet ⟨l.work p, r.work q, [], []⟩ ⟨l.work p', r.work q', [], []⟩ :=
  (l.follows h).converse (r.follows h')

theorem leads_put {p w : LineProcess JobResult} {role : LineRole} {c : UInt8}
    (h : p = .write role c w) (l r : LineStation) (toRight toLeft : List LineByte) :
    Leads LineQuiet ⟨l.work p, r, toRight, toLeft⟩
      ⟨l.work w, r, toRight ++ [(role, c)], toLeft⟩ := by
  rw [h]
  exact (l.puts role c w).left r toRight toLeft

theorem leads_put_right {p w : LineProcess JobResult} {role : LineRole} {c : UInt8}
    (h : p = .write role c w) (l r : LineStation) (toRight toLeft : List LineByte) :
    Leads LineQuiet ⟨l, r.work p, toRight, toLeft⟩
      ⟨l, r.work w, toRight, toLeft ++ [(role, c)]⟩ :=
  Leads.flip (leads_put h r l toLeft toRight)

/-- A job ends. -/
theorem leads_finish (result : JobResult) (l r : LineStation) (toRight toLeft : List LineByte) :
    Leads LineQuiet ⟨l.work (.done result), r, toRight, toLeft⟩
      ⟨l.finish result, r, toRight, toLeft⟩ := by
  have hmove : LineStation.act (l.work (.done result)) = .move (l.finish result) := rfl
  have hleads := (Does.move hmove).left r toRight toLeft
  rwa [List.append_nil] at hleads

/-- One station has announced a message and the other one receives it. -/
theorem leads_receive {n : ℕ} (hn : 0 < n) {w : LineProcess JobResult} {result : JobResult}
    (m : SecsMessage) (rbit : Bool)
    (hw : Process.Goes LineRead.byte w (answered (m.block rbit)) (.done result))
    (l r : LineStation) :
    Leads LineQuiet ⟨l.work w, r.work (recvJob n), [enq], []⟩
      ⟨l.finish result, r.finish ([], [m.arrives rbit]), [], []⟩ := by
  obtain ⟨q₁, hq₁, htake⟩ := leads_take (recvJob_goes m rbit hn) (l.work w) r [] []
  have htransfer := leads_transfer hw hq₁ l r
  have hleft := leads_finish result l (r.work (.done ([], [m.arrives rbit]))) [] []
  have hright := Leads.flip (leads_finish ([], [m.arrives rbit]) r (l.finish result) [] [])
  exact htake.trans (htransfer.trans (hleft.trans hright))

/-- Both have announced a message. The station without the R-bit receives the other one's and
starts to send again. -/
theorem leads_contention {n turns : ℕ} (hn : 0 < n) {opts : SecsOptions}
    (hrbit : opts.rbit = false) (hattempts : opts.attempts ≠ 0) {received : List ReceivedMessage}
    {w w' : LineProcess JobResult} {result : JobResult} (m m' : SecsMessage) (rbit : Bool)
    (hw : Process.Goes LineRead.byte w (.takes enq :: answered (m.block rbit)) (.done result))
    (hw' : sending n opts m' (turns + 1) received = .write .handshake ENQ w')
    (l r : LineStation) :
    Leads LineQuiet ⟨l.work w, r.work w', [enq], [enq]⟩
      ⟨l.finish result, r.work (sending n opts m' turns (received ++ [m.arrives rbit])),
        [], []⟩ := by
  have hyields := sending_yields turns received m' hn hattempts hrbit m rbit
  rw [hw'] at hyields
  cases hyields with
  | write hyields =>
      obtain ⟨q₁, hq₁, htake⟩ := leads_take hyields (l.work w) r [] [enq]
      obtain ⟨p₁, hp₁, htake'⟩ := leads_take hw (r.work q₁) l [] []
      have htransfer := leads_transfer hp₁ hq₁ l r
      have hleft := leads_finish result l
        (r.work (sending n opts m' turns (received ++ [m.arrives rbit]))) [] []
      exact htake.trans ((Leads.flip htake').trans (htransfer.trans hleft))

/-! ## Settled states -/

/-- Two stations that can share a line: one of them has the R-bit, and `n` turns are enough for
each loop. -/
structure Paired (n : ℕ) (a b : SecsOptions) (fs : List SecsMessage) : Prop where
  left_rbit : a.rbit = true
  right_rbit : b.rbit = false
  left_attempts : a.attempts ≠ 0
  right_attempts : b.attempts ≠ 0
  turns : 1 < n
  contentions : fs.length < n

def SecsOptions.arrivals (opts : SecsOptions) (ms : List SecsMessage) : List ReceivedMessage :=
  ms.map fun m => m.arrives opts.rbit

/-- Nothing is on its way but an `ENQ` that the other station has yet to notice. The left station
sends the messages `fs` and the right one `gs`; `late` are those that the right station has received
while it waits to send. -/
inductive Settled (n : ℕ) (a b : SecsOptions) (fs gs : List SecsMessage) :
    Line LineStation LineByte → Prop
  | resting {sa as sb bs : List SecsMessage} (hfs : fs = sa ++ as) (hgs : gs = sb ++ bs) :
      Settled n a b fs gs
        ⟨.resting a as (b.arrivals sb) sa, .resting b bs (a.arrivals sa) sb, [], []⟩
  | left {sa as sb bs : List SecsMessage} {m : SecsMessage} {turns : ℕ}
      {w : LineProcess JobResult} (hfs : fs = sa ++ m :: as) (hgs : gs = sb ++ bs)
      (hw : sending n a m (turns + 1) [] = .write .handshake ENQ w) :
      Settled n a b fs gs ⟨(LineStation.resting a as (b.arrivals sb) sa).work w,
        .resting b bs (a.arrivals sa) sb, [enq], []⟩
  | right {sa late as sb bs : List SecsMessage} {m : SecsMessage} {turns : ℕ}
      {w : LineProcess JobResult} (hfs : fs = sa ++ late ++ as) (hgs : gs = sb ++ m :: bs)
      (hw : sending n b m (turns + 1) (a.arrivals late) = .write .handshake ENQ w)
      (hturns : as.length ≤ turns) :
      Settled n a b fs gs ⟨.resting a as (b.arrivals sb) (sa ++ late),
        (LineStation.resting b bs (a.arrivals sa) sb).work w, [], [enq]⟩

theorem enquired_reads {n turns : ℕ} {opts : SecsOptions} (hn : 0 < n)
    (hattempts : opts.attempts ≠ 0) {received : List ReceivedMessage} {m : SecsMessage}
    {w : LineProcess JobResult}
    (hw : sending n opts m (turns + 1) received = .write .handshake ENQ w) :
    Process.Goes LineRead.byte w (answered (m.block opts.rbit)) (.done ([0], received)) ∧
      ∃ role next, w = .read role next := by
  have h := sending_goes turns received m hn hattempts
  rw [hw] at h
  cases h with
  | write h =>
      refine ⟨h, ?_⟩
      cases h with
      | read => exact ⟨_, _, rfl⟩

section

variable {n : ℕ} {a b : SecsOptions} {fs gs : List SecsMessage}

theorem Settled.final (hpaired : Paired n a b fs) {s : Line LineStation LineByte}
    (h : Settled n a b fs gs s) : Final LineQuiet s := by
  have hn := Nat.lt_of_succ_lt hpaired.turns
  cases h with
  | resting hfs hgs => exact final_of_waits (.inl rfl) (.inl rfl)
  | left hfs hgs hw =>
      obtain ⟨-, role, next, rfl⟩ := enquired_reads hn hpaired.left_attempts hw
      exact final_of_waits (.inr ⟨rfl, _, rfl⟩) (.inl rfl)
  | right hfs hgs hw hturns =>
      obtain ⟨-, role, next, rfl⟩ := enquired_reads hn hpaired.right_attempts hw
      exact final_of_waits (.inl rfl) (.inr ⟨rfl, _, rfl⟩)

/-- A message has been sent, and others have been received while it was. -/
theorem resting_sent (opts : SecsOptions) (unsent sent : List SecsMessage)
    (received late : List ReceivedMessage) (m : SecsMessage) :
    (LineStation.resting opts unsent received sent).finish ([0], late) =
      .resting opts unsent (received ++ late) (sent ++ [m]) := by
  simp [LineStation.resting, LineStation.finish, List.replicate_succ']

theorem resting_received (opts : SecsOptions) (unsent sent : List SecsMessage)
    (received : List ReceivedMessage) (message : ReceivedMessage) :
    (LineStation.resting opts unsent received sent).finish ([], [message]) =
      .resting opts unsent (received ++ [message]) sent := by
  simp [LineStation.resting, LineStation.finish]

theorem arrivals_append (opts : SecsOptions) (ms ms' : List SecsMessage) :
    opts.arrivals (ms ++ ms') = opts.arrivals ms ++ opts.arrivals ms' :=
  List.map_append

/-- Both stations have announced a message. -/
theorem leads_settled_contention (hpaired : Paired n a b fs) (late : List SecsMessage)
    {sa as sb bs : List SecsMessage} {m c : SecsMessage} {turns turns' : ℕ}
    {w w' : LineProcess JobResult} (hfs : fs = sa ++ late ++ m :: as) (hgs : gs = sb ++ c :: bs)
    (hw : sending n a m (turns' + 1) [] = .write .handshake ENQ w)
    (hw' : sending n b c (turns + 1) (a.arrivals late) = .write .handshake ENQ w')
    (hturns : as.length + 1 ≤ turns) :
    ∃ s, Leads LineQuiet ⟨(LineStation.resting a as (b.arrivals sb) (sa ++ late)).work w,
      (LineStation.resting b bs (a.arrivals sa) sb).work w', [enq], [enq]⟩ s ∧
        Settled n a b fs gs s ∧ weight s = 2 * (as.length + bs.length) + 1 := by
  obtain ⟨turns, rfl⟩ := Nat.exists_eq_succ_of_ne_zero (Nat.ne_zero_of_lt hturns)
  have hn := Nat.lt_of_succ_lt hpaired.turns
  have hinsists := sending_insists turns' [] m hpaired.turns hpaired.left_attempts
    hpaired.left_rbit
  rw [hw] at hinsists
  cases hinsists with
  | write hinsists =>
      have hcontention := leads_contention hn hpaired.right_rbit hpaired.right_attempts m c
        a.rbit hinsists hw' (.resting a as (b.arrivals sb) (sa ++ late))
        (.resting b bs (a.arrivals sa) sb)
      have hlate : a.arrivals late ++ [m.arrives a.rbit] = a.arrivals (late ++ [m]) :=
        (arrivals_append a late [m]).symm
      rw [hlate, resting_sent a as (sa ++ late) (b.arrivals sb) [] m, List.append_nil,
        List.append_assoc] at hcontention
      obtain ⟨w'', hw''⟩ := sending_starts turns (a.arrivals (late ++ [m])) c hn
        hpaired.right_attempts
      have hput := leads_put_right hw'' (.resting a as (b.arrivals sb) (sa ++ (late ++ [m])))
        (.resting b bs (a.arrivals sa) sb) [] []
      refine ⟨_, hcontention.trans hput, .right ?_ hgs hw'' (Nat.le_of_succ_le_succ hturns), rfl⟩
      rw [hfs]
      simp

/-- The right station receives what the left one has announced. -/
theorem leads_settled_left (hpaired : Paired n a b fs) {sa as sb bs : List SecsMessage}
    {m : SecsMessage} {turns : ℕ} {w : LineProcess JobResult}
    (hfs : fs = sa ++ m :: as) (hgs : gs = sb ++ bs)
    (hw : sending n a m (turns + 1) [] = .write .handshake ENQ w) :
    ∃ s, Leads LineQuiet ⟨(LineStation.resting a as (b.arrivals sb) sa).work w,
      (LineStation.resting b bs (a.arrivals sa) sb).work (recvJob n), [enq], []⟩ s ∧
        Settled n a b fs gs s ∧ weight s = 2 * (as.length + bs.length) := by
  have hn := Nat.lt_of_succ_lt hpaired.turns
  obtain ⟨hgoes, -⟩ := enquired_reads hn hpaired.left_attempts hw
  have hreceive := leads_receive hn m a.rbit hgoes (.resting a as (b.arrivals sb) sa)
    (.resting b bs (a.arrivals sa) sb)
  have harrivals : a.arrivals sa ++ [m.arrives a.rbit] = a.arrivals (sa ++ [m]) :=
    (arrivals_append a sa [m]).symm
  rw [resting_sent a as sa (b.arrivals sb) [] m, List.append_nil, resting_received,
    harrivals] at hreceive
  exact ⟨_, hreceive, .resting (by simp [hfs]) hgs, rfl⟩

/-- The left station receives what the right one has announced. -/
theorem leads_settled_right (hpaired : Paired n a b fs) {sa late as sb bs : List SecsMessage}
    {m : SecsMessage} {turns : ℕ} {w : LineProcess JobResult}
    (hfs : fs = sa ++ late ++ as) (hgs : gs = sb ++ m :: bs)
    (hw : sending n b m (turns + 1) (a.arrivals late) = .write .handshake ENQ w) :
    ∃ s, Leads LineQuiet
      ⟨(LineStation.resting a as (b.arrivals sb) (sa ++ late)).work (recvJob n),
        (LineStation.resting b bs (a.arrivals sa) sb).work w, [], [enq]⟩ s ∧
        Settled n a b fs gs s ∧ weight s = 2 * (as.length + bs.length) := by
  have hn := Nat.lt_of_succ_lt hpaired.turns
  obtain ⟨hgoes, -⟩ := enquired_reads hn hpaired.right_attempts hw
  have hreceive := Leads.flip (leads_receive hn m b.rbit hgoes
    (.resting b bs (a.arrivals sa) sb) (.resting a as (b.arrivals sb) (sa ++ late)))
  have harrivals : b.arrivals sb ++ [m.arrives b.rbit] = b.arrivals (sb ++ [m]) :=
    (arrivals_append b sb [m]).symm
  rw [resting_sent b bs sb (a.arrivals sa) (a.arrivals late) m, resting_received, harrivals,
    ← arrivals_append] at hreceive
  exact ⟨_, hreceive, .resting hfs (by simp [hgs]), rfl⟩

/-! ## Choices -/

/-- What the left station can choose. -/
theorem leftChoice_cases {l r : LineStation} {p q : List LineByte} {s : Line LineStation LineByte}
    (h : Dialogues.Chooses LineStation.act (LineStation.Chooses n) ⟨l, r, p, q⟩ s) :
    l.job = none ∧ ((∃ m unsent, l.unsent = m :: unsent ∧
        s = ⟨({ l with unsent := unsent } : LineStation).work (sendJob n l.opts m), r, p, q⟩) ∨
      (q ≠ [] ∧ s = ⟨l.work (recvJob n), r, p, q⟩)) := by
  obtain ⟨-, hchoose, hleft, hright, hother⟩ := h
  obtain ⟨l', r', p', q'⟩ := s
  obtain rfl : q' = q := hleft
  obtain rfl : p' = p := hright
  obtain rfl : r' = r := hother
  cases hchoose with
  | send hjob hunsent => exact ⟨hjob, .inl ⟨_, _, hunsent, rfl⟩⟩
  | receive hjob => exact ⟨hjob, .inr ⟨List.cons_ne_nil _ _, rfl⟩⟩

/-- What the right station can choose. -/
theorem rightChoice_cases {l r : LineStation} {p q : List LineByte} {s : Line LineStation LineByte}
    (h : Dialogues.Chooses LineStation.act (LineStation.Chooses n) ⟨r, l, q, p⟩ s.flip) :
    r.job = none ∧ ((∃ m unsent, r.unsent = m :: unsent ∧
        s = ⟨l, ({ r with unsent := unsent } : LineStation).work (sendJob n r.opts m), p, q⟩) ∨
      (p ≠ [] ∧ s = ⟨l, r.work (recvJob n), p, q⟩)) := by
  obtain ⟨hjob, ⟨m, unsent, hunsent, hs⟩ | ⟨hq, hs⟩⟩ := leftChoice_cases h
  · exact ⟨hjob, .inl ⟨m, unsent, hunsent, congrArg Line.flip hs⟩⟩
  · exact ⟨hjob, .inr ⟨hq, congrArg Line.flip hs⟩⟩

/-- The job of sending a message starts with `ENQ`. -/
theorem sendJob_starts (hn : 0 < n) {opts : SecsOptions} (hattempts : opts.attempts ≠ 0)
    (m : SecsMessage) : ∃ turns w, n = turns + 1 ∧
      sendJob n opts m = sending n opts m (turns + 1) [] ∧
      sending n opts m (turns + 1) [] = .write .handshake ENQ w := by
  obtain ⟨turns, rfl⟩ := Nat.exists_eq_succ_of_ne_zero (Nat.ne_of_gt hn)
  obtain ⟨w, hw⟩ := sending_starts turns [] m hn hattempts
  exact ⟨turns, w, rfl, sendJob_eq _ opts m, hw⟩

/-- The right station has announced its message before anything was received. -/
theorem Settled.right_first {sa as sb bs : List SecsMessage} {m : SecsMessage} {turns : ℕ}
    {w : LineProcess JobResult} (hfs : fs = sa ++ as) (hgs : gs = sb ++ m :: bs)
    (hw : sending n b m (turns + 1) [] = .write .handshake ENQ w) (hturns : as.length ≤ turns) :
    Settled n a b fs gs ⟨.resting a as (b.arrivals sb) sa,
      (LineStation.resting b bs (a.arrivals sa) sb).work w, [], [enq]⟩ := by
  have hfirst : Settled n a b fs gs ⟨.resting a as (b.arrivals sb) (sa ++ []),
      (LineStation.resting b bs (a.arrivals sa) sb).work w, [], [enq]⟩ :=
    .right (by simp [hfs]) hgs hw hturns
  rwa [List.append_nil] at hfirst

/-- Every choice leads to a settled state again, and less is left to choose. -/
theorem Settled.choice (hpaired : Paired n a b fs) {s t : Line LineStation LineByte}
    (hs : Settled n a b fs gs s) (hchoice : LineChoice n s t) :
    ∃ u, Leads LineQuiet t u ∧ Settled n a b fs gs u ∧ weight u < weight s := by
  have hn := Nat.lt_of_succ_lt hpaired.turns
  cases hs with
  | @resting sa as sb bs hfs hgs =>
      rcases hchoice with hchoice | hchoice
      · obtain ⟨-, ⟨m, as, hunsent, rfl⟩ | ⟨hq, -⟩⟩ := leftChoice_cases hchoice
        · cases hunsent
          obtain ⟨turns, w, -, hjob, hw⟩ :=
            sendJob_starts hn hpaired.left_attempts m
          refine ⟨_, leads_put (hjob.trans hw) (.resting a as (b.arrivals sb) sa) (.resting b bs (a.arrivals sa) sb) [] [],
            .left hfs hgs hw, ?_⟩
          simp [weight, LineStation.resting, LineStation.work]
          omega
        · exact absurd rfl hq
      · obtain ⟨-, ⟨m, bs, hunsent, rfl⟩ | ⟨hp, -⟩⟩ := rightChoice_cases hchoice
        · cases hunsent
          obtain ⟨turns, w, hturns, hjob, hw⟩ :=
            sendJob_starts hn hpaired.right_attempts m
          have hlate : as.length ≤ turns := by
            have hcount := hpaired.contentions
            rw [hfs, List.length_append] at hcount
            omega
          refine ⟨_, leads_put_right (hjob.trans hw) (.resting a as (b.arrivals sb) sa)
            (.resting b bs (a.arrivals sa) sb) [] [], .right_first hfs hgs hw hlate, ?_⟩
          simp [weight, LineStation.resting, LineStation.work]
          omega
        · exact absurd rfl hp
  | @left sa as sb bs m turns w hfs hgs hw =>
      rcases hchoice with hchoice | hchoice
      · obtain ⟨hjob, -⟩ := leftChoice_cases hchoice
        cases hjob
      · obtain ⟨-, ⟨m', bs, hunsent, rfl⟩ | ⟨hp, rfl⟩⟩ := rightChoice_cases hchoice
        · cases hunsent
          obtain ⟨turns', w', hturns', hjob, hw'⟩ :=
            sendJob_starts hn hpaired.right_attempts m'
          have hlate : as.length + 1 ≤ turns' := by
            have hcount := hpaired.contentions
            rw [hfs, List.length_append, List.length_cons] at hcount
            omega
          have hput := leads_put_right (hjob.trans hw') ((LineStation.resting a as (b.arrivals sb) sa).work w)
            (.resting b bs (a.arrivals sa) sb) [enq] []
          obtain ⟨u, hu, hsettled, hweight⟩ := leads_settled_contention hpaired []
            (by simpa using hfs) hgs hw hw' hlate
          rw [List.append_nil] at hu
          refine ⟨u, hput.trans hu, hsettled, ?_⟩
          rw [hweight]
          simp [weight, LineStation.resting, LineStation.work]
        · obtain ⟨u, hu, hsettled, hweight⟩ := leads_settled_left hpaired hfs hgs hw
          refine ⟨u, hu, hsettled, ?_⟩
          rw [hweight]
          simp [weight, LineStation.resting, LineStation.work]
  | @right sa late as sb bs m turns w hfs hgs hw hturns =>
      rcases hchoice with hchoice | hchoice
      · obtain ⟨-, ⟨m', as, hunsent, rfl⟩ | ⟨hq, rfl⟩⟩ := leftChoice_cases hchoice
        · cases hunsent
          obtain ⟨turns', w', -, hjob, hw'⟩ :=
            sendJob_starts hn hpaired.left_attempts m'
          have hput := leads_put (hjob.trans hw') (.resting a as (b.arrivals sb) (sa ++ late))
            ((LineStation.resting b bs (a.arrivals sa) sb).work w) [] [enq]
          obtain ⟨u, hu, hsettled, hweight⟩ := leads_settled_contention hpaired late hfs hgs
            hw' hw hturns
          refine ⟨u, hput.trans hu, hsettled, ?_⟩
          rw [hweight]
          simp [weight, LineStation.resting, LineStation.work]
        · obtain ⟨u, hu, hsettled, hweight⟩ := leads_settled_right hpaired hfs hgs hw
          refine ⟨u, hu, hsettled, ?_⟩
          rw [hweight]
          simp [weight, LineStation.resting, LineStation.work]
      · obtain ⟨hjob, -⟩ := rightChoice_cases hchoice
        cases hjob

/-! ## All runs -/

structure LineStation.Keeps (s t : LineStation) : Prop where
  received : s.received <+: t.received
  mixed : t.mixed = false → s.mixed = false

theorem LineStation.Keeps.refl (s : LineStation) : s.Keeps s := ⟨List.prefix_rfl, id⟩

theorem LineStation.Keeps.trans {s t u : LineStation} (h : s.Keeps t) (h' : t.Keeps u) :
    s.Keeps u :=
  ⟨h.received.trans h'.received, fun hmixed => h.mixed (h'.mixed hmixed)⟩

theorem does_keeps {s t : LineStation} {taken put : List LineByte}
    (h : Does LineStation.act s taken put t) : s.Keeps t := by
  cases h with
  | write h =>
      unfold LineStation.act at h
      split at h <;> cases h
      exact ⟨List.prefix_rfl, id⟩
  | read h b =>
      unfold LineStation.act at h
      split at h <;> cases h
      exact ⟨List.prefix_rfl, fun hmixed => (Bool.or_eq_false_iff.1 hmixed).1⟩
  | move h =>
      unfold LineStation.act at h
      split at h <;> cases h
      exact ⟨List.prefix_append _ _, id⟩

theorem steps_keep {k : ℕ} {s t : Line LineStation LineByte} (h : Steps LineQuiet k s t) :
    s.left.Keeps t.left ∧ s.right.Keeps t.right := by
  induction h with
  | refl s => exact ⟨.refl _, .refl _⟩
  | @head _ s t u hstep _ ih =>
      obtain ⟨hleft, hright⟩ := ih
      rcases hstep with hacts | hacts
      · obtain ⟨_, _, hdoes, -, -, hother⟩ := hacts
        rw [hother] at hright
        exact ⟨(does_keeps hdoes).trans hleft, hright⟩
      · obtain ⟨_, _, hdoes, -, -, hother⟩ := hacts
        have hsame : t.left = s.left := hother
        rw [hsame] at hleft
        exact ⟨hleft, (does_keeps hdoes).trans hright⟩

theorem choice_left {l l' r : LineStation} {p q : List LineByte} (hrest : l.act = .rest)
    (h : LineStation.Chooses n q l l') : LineStep n ⟨l, r, p, q⟩ ⟨l', r, p, q⟩ :=
  .inr (.inl ⟨hrest, h, rfl, rfl, rfl⟩)

theorem choice_right {l r r' : LineStation} {p q : List LineByte} (hrest : r.act = .rest)
    (h : LineStation.Chooses n p r r') : LineStep n ⟨l, r, p, q⟩ ⟨l, r', p, q⟩ :=
  .inr (.inr ⟨hrest, h, rfl, rfl, rfl⟩)

/-- What has been received in a settled state are messages that were sent, in their order, and
nothing has been mixed up. -/
theorem Settled.safe {s : Line LineStation LineByte} (h : Settled n a b fs gs s) :
    s.left.received <+: b.arrivals gs ∧ s.right.received <+: a.arrivals fs ∧
      s.left.mixed = false ∧ s.right.mixed = false := by
  cases h with
  | resting hfs hgs =>
      subst hfs hgs
      refine ⟨?_, ?_, rfl, rfl⟩ <;> simp [arrivals_append, LineStation.resting]
  | left hfs hgs hw =>
      subst hfs hgs
      refine ⟨?_, ?_, rfl, rfl⟩ <;> simp [arrivals_append, LineStation.resting, LineStation.work]
  | right hfs hgs hw hturns =>
      subst hfs hgs
      refine ⟨?_, ?_, rfl, rfl⟩ <;> simp [arrivals_append, LineStation.resting, LineStation.work]

/-- When nothing is left to choose either, all messages have been received. -/
theorem Settled.rest {s : Line LineStation LineByte} (h : Settled n a b fs gs s)
    (hfinal : Final (LineStep n) s) :
    s = ⟨.resting a [] (b.arrivals gs) fs, .resting b [] (a.arrivals fs) gs, [], []⟩ := by
  cases h with
  | @resting sa as sb bs hfs hgs =>
      cases as with
      | cons m as =>
          exact (hfinal _ (choice_left rfl (.send rfl rfl))).elim
      | nil =>
          cases bs with
          | cons m bs =>
              exact (hfinal _ (choice_right rfl (.send rfl rfl))).elim
          | nil =>
              rw [List.append_nil] at hfs hgs
              rw [hfs, hgs]
  | left hfs hgs hw =>
      exact (hfinal _ (choice_right rfl (.receive rfl))).elim
  | right hfs hgs hw hturns =>
      exact (hfinal _ (choice_left rfl (.receive rfl))).elim

theorem Settled.start (n : ℕ) (a b : SecsOptions) (fs gs : List SecsMessage) :
    Settled n a b fs gs ⟨.resting a fs [] [], .resting b gs [] [], [], []⟩ :=
  @Settled.resting n a b fs gs [] fs [] gs rfl rfl

theorem Paired.settles (hpaired : Paired n a b fs) {s : Line LineStation LineByte}
    (h : Relation.ReflTransGen (LineStep n) ⟨.resting a fs [] [], .resting b gs [] [], [], []⟩ s) :
    ∃ k z, Settles LineQuiet k s z ∧ Settled n a b fs gs z := by
  have hstart := Settled.start n a b fs gs
  apply settles_of_reaches (lineSteps_commute n) _ h
    ⟨0, _, ⟨.refl _, hstart.final hpaired⟩, hstart⟩
  intro z z' hz hchoice
  obtain ⟨u, hu, hsettled, -⟩ := hz.choice hpaired hchoice
  obtain ⟨k, hk⟩ := hu.settles (hsettled.final hpaired)
  exact ⟨k, u, hk, hsettled⟩

theorem Paired.ends (hpaired : Paired n a b fs) :
    EndsIn (LineStep n) ⟨.resting a fs [] [], .resting b gs [] [], [], []⟩
      ⟨.resting a [] (b.arrivals gs) fs, .resting b [] (a.arrivals fs) gs, [], []⟩ := by
  have hstart := Settled.start n a b fs gs
  constructor
  · apply acc_of_settles (lineSteps_commute n) weight _
      ⟨.refl _, hstart.final hpaired⟩ hstart
    intro z z' hz hchoice
    obtain ⟨u, hu, hsettled, hweight⟩ := hz.choice hpaired hchoice
    obtain ⟨k, hk⟩ := hu.settles (hsettled.final hpaired)
    exact ⟨k, u, hk, hsettled, hweight⟩
  · intro s hs hfinal
    obtain ⟨k, z, hsettles, hsettled⟩ := hpaired.settles hs
    obtain rfl := hsettles.eq_of_final fun t ht => hfinal t (.inl ht)
    exact hsettled.rest hfinal

end

/-! ## All messages arrive -/

def lineStart (a b : SecsOptions) (fs gs : List SecsMessage) : Line LineStation LineByte :=
  ⟨.resting a fs [] [], .resting b gs [] [], [], []⟩

def lineEnd (a b : SecsOptions) (fs gs : List SecsMessage) : Line LineStation LineByte :=
  ⟨.resting a [] (b.arrivals gs) fs, .resting b [] (a.arrivals fs) gs, [], []⟩

theorem paired_of_le {a b : SecsOptions} (ha : a.rbit = true) (hb : b.rbit = false)
    (hattempts : a.attempts ≠ 0) (hattempts' : b.attempts ≠ 0) {fs : List SecsMessage} {n : ℕ}
    (hn : fs.length + 2 ≤ n) : Paired n a b fs :=
  ⟨ha, hb, hattempts, hattempts', by omega, by omega⟩

/-- In every state that is reached, only messages that were sent have been received, in their order,
and nothing has been mixed up. -/
theorem Paired.safe {n : ℕ} {a b : SecsOptions} {fs gs : List SecsMessage}
    (hpaired : Paired n a b fs) {s : Line LineStation LineByte}
    (hs : Relation.ReflTransGen (LineStep n) (lineStart a b fs gs) s) :
    s.left.received <+: b.arrivals gs ∧ s.right.received <+: a.arrivals fs ∧
      s.left.mixed = false ∧ s.right.mixed = false := by
  obtain ⟨k, z, hsettles, hsettled⟩ := hpaired.settles hs
  obtain ⟨hleft, hright⟩ := steps_keep hsettles.steps
  obtain ⟨hgs', hfs', hmixed, hmixed'⟩ := hsettled.safe
  exact ⟨hleft.received.trans hgs', hright.received.trans hfs', hleft.mixed hmixed,
    hright.mixed hmixed'⟩

/-- Two stations of which one has the R-bit send each other messages, each whenever it likes. In
whatever order they act, what has been received is always the first part of what arrives of the
other station's messages, no byte is taken for something else than it was sent for, and every run
ends, with the headers of all messages received once and in order, and nothing else of them. -/
theorem secsI_stations_deliver {a b : SecsOptions} (ha : a.rbit = true) (hb : b.rbit = false)
    (hattempts : a.attempts ≠ 0) (hattempts' : b.attempts ≠ 0) (fs gs : List SecsMessage) (n : ℕ)
    (hn : fs.length + 2 ≤ n) :
    EndsIn (LineStep n) (lineStart a b fs gs) (lineEnd a b fs gs) ∧
      ∀ s, Relation.ReflTransGen (LineStep n) (lineStart a b fs gs) s →
        s.left.received <+: b.arrivals gs ∧ s.right.received <+: a.arrivals fs ∧
          s.left.mixed = false ∧ s.right.mixed = false := by
  have hpaired := paired_of_le ha hb hattempts hattempts' hn
  exact ⟨hpaired.ends, fun s hs => hpaired.safe hs⟩

def areYouThere : SecsMessage := ⟨⟨1, 1, 0, 1⟩, 7, []⟩

def longReport : SecsMessage := ⟨⟨6, 11, 0, 1⟩, 8, 0x42 :: 1 :: 0x2C :: List.replicate 300 0x41⟩

theorem secsI_stations_deliver_reports :
    EndsIn (LineStep 5) (lineStart ⟨true, 3⟩ ⟨false, 3⟩ [longReport] [areYouThere])
      (lineEnd ⟨true, 3⟩ ⟨false, 3⟩ [longReport] [areYouThere]) ∧
    ∀ s, Relation.ReflTransGen (LineStep 5)
        (lineStart ⟨true, 3⟩ ⟨false, 3⟩ [longReport] [areYouThere]) s →
      s.left.received <+: [⟨[0, 0, 0x81, 1, 0x80, 1, 0, 0, 0, 7], []⟩] ∧
        s.right.received <+: [⟨[0x80, 0, 0x86, 11, 0x80, 1, 0, 0, 0, 8], []⟩] ∧
        s.left.mixed = false ∧ s.right.mixed = false :=
  secsI_stations_deliver rfl rfl (by decide) (by decide) [longReport] [areYouThere] 5 (by decide)

end ScOpen
