import ScOpen.HsmsTransactions

/-!
# Every transaction is completed

However two programs' sends and receipts follow each other, and for as long as no T3 timer goes off,
each handler is started for the messages in the order in which they are sent, each place is resumed
once, with the reply to the message that waits there, and nothing is discarded. A run ends, after as
many steps as can be counted beforehand, when there is nothing left to be done.
-/

namespace ScOpen

open Dialogues

/-! ## What a run comes to -/

/-- The left program's transactions take their course: so far the right program has got the first of
the messages, and the first of the waiting places have been resumed. The process ends only when it
opens a transaction while forty are open. -/
structure Orderly {β : Type} (s₀ s : Line HsmsProgram β) : Prop where
  started : s.right.started <+: s₀.left.requests
  resumed : s.left.resumed <+: (numberedSends s₀.left.systemBytes s₀.left.unsent).filterMap
    (resumption s₀.right.handler)
  discarded : s.left.discarded = []
  sends : ∀ send unsent, s.left.unsent = send :: unsent → (s.left.sendHsms = none ↔
    send.waits = true ∧ s.left.station.completed.length + 40 ≤ s.left.station.opened.length)

structure Concluded {β : Type} (s₀ s : Line HsmsProgram β) : Prop where
  unsent : s.left.unsent = []
  started : s.right.started = s₀.left.requests
  resumed : s.left.resumed = (numberedSends s₀.left.systemBytes s₀.left.unsent).filterMap
    (resumption s₀.right.handler)
  completed : s.left.station.completed.length = s.left.station.opened.length

/-! ## Counting -/

def sendWeight (send : HsmsSend) : ℕ := if send.waits then 3 else 2

def packetWeight (handler : Packet → Option (MessageHead × Bytes)) (packet : Packet) : ℕ :=
  if isRequest packet = true ∧ (handler packet).isSome then 2 else 1

def sideWeight (s : PacketExchange) : ℕ :=
  (s.left.unsent.map sendWeight).sum + (s.toRight.map (packetWeight s.right.handler)).sum

def hsmsWeight (s : PacketExchange) : ℕ := sideWeight s + sideWeight s.flip

theorem hsmsWeight_flip (s : PacketExchange) : hsmsWeight s.flip = hsmsWeight s :=
  Nat.add_comm _ _

/-! ## The invariant of both programs -/

structure InConversation (numbers numbers' : List (UInt32 × HsmsSend)) (s : PacketExchange) :
    Prop where
  left : Conversing numbers s
  right : Conversing numbers' s.flip

section

variable {numbers numbers' : List (UInt32 × HsmsSend)} {s t : PacketExchange}

theorem InConversation.flip (h : InConversation numbers numbers' s) :
    InConversation numbers' numbers s.flip := ⟨h.right, h.left⟩

theorem Askable.weight {handler : Packet → Option (MessageHead × Bytes)}
    (h : Askable numbers handler) {x : UInt32 × HsmsSend} (hx : x ∈ numbers) :
    packetWeight handler (request x) + 1 = sendWeight x.2 := by
  rw [packetWeight, sendWeight]
  cases hwaits : x.2.waits with
  | true =>
      obtain ⟨reply, hreply⟩ := (h.waits_iff hx).1 hwaits
      rw [if_pos ⟨h.isRequest hx, by rw [hreply]; rfl⟩]
      rfl
  | false =>
      have hnone : ¬ (handler (request x)).isSome := by
        intro hsome
        have hwaits' := (h.waits_iff hx).2 (Option.isSome_iff_exists.1 hsome)
        rw [hwaits] at hwaits'
        cases hwaits'
      rw [if_neg fun hboth => hnone hboth.2]
      rfl

theorem packetWeight_of_not_request {handler : Packet → Option (MessageHead × Bytes)}
    {packet : Packet} (h : isRequest packet = false) : packetWeight handler packet = 1 := by
  rw [packetWeight, if_neg]
  rw [h]
  exact fun hboth => Bool.false_ne_true hboth.1

/-- A message that arrives is either one of the other program's or a reply to one of one's own. -/
theorem Conversing.weight_replies {l r : HsmsProgram} {p q : List Packet} {packet : Packet}
    (h : Conversing numbers ⟨l, r, packet :: p, q⟩) (hrequest : isRequest packet = true)
    (handler : Packet → Option (MessageHead × Bytes)) :
    ((replyTo r.handler packet).toList.map (packetWeight handler)).sum + 1 =
      packetWeight r.handler packet := by
  obtain ⟨haskable, past, answered, asked, hstage, hnumbers⟩ := h
  obtain ⟨x, asked', rfl, rfl, -⟩ := hstage.first_request hrequest
  have hmem : x ∈ numbers := by
    rw [hnumbers]
    apply List.mem_append_left
    exact List.mem_append_right _ List.mem_cons_self
  cases hreply : replyTo r.handler (request x) with
  | none =>
      have hhandler : ¬ (r.handler (request x)).isSome := by
        rw [replyTo, Option.map_eq_none_iff] at hreply
        simp only [hreply, Option.isSome_none, Bool.false_eq_true, not_false_eq_true]
      rw [packetWeight, if_neg fun hboth => hhandler hboth.2]
      rfl
  | some reply =>
      obtain ⟨answer, hhandler, -⟩ := Option.map_eq_some_iff.1 hreply
      have hone : packetWeight handler reply = 1 :=
        packetWeight_of_not_request (haskable.reply hmem hreply).2.1
      rw [packetWeight, if_pos ⟨hrequest, by rw [hhandler]; rfl⟩]
      rw [Option.toList_some, List.map_singleton, List.sum_singleton, hone]

/-! ## Steps -/

theorem InConversation.sends (h : InConversation numbers numbers' s) (hsends : PacketSends s t) :
    InConversation numbers numbers' t ∧ hsmsWeight t + 1 = hsmsWeight s := by
  obtain ⟨l, r, p, q⟩ := s
  obtain ⟨l', r', p', q'⟩ := t
  obtain ⟨packet, hsend, hright, htoRight, htoLeft⟩ := hsends
  simp only at hsend hright htoRight htoLeft
  subst hright htoRight htoLeft
  refine ⟨⟨h.left.sends hsend, h.left.sends_other h.right hsend⟩, ?_⟩
  obtain ⟨send, unsent, station, hunsent, rfl, rfl, -⟩ := sendHsms_cases hsend
  have hweight := h.left.askable.weight (h.left.mem_next hunsent)
  simp only at hweight
  simp only [hsmsWeight, sideWeight, Line.flip, hunsent, List.map_cons, List.sum_cons,
    List.map_append, List.sum_append, List.map_nil, List.sum_nil]
  omega

theorem InConversation.receives (h : InConversation numbers numbers' s)
    (hreceives : PacketReceives s t) :
    InConversation numbers numbers' t ∧ hsmsWeight t + 1 = hsmsWeight s := by
  obtain ⟨l, r, p, q⟩ := s
  obtain ⟨l', r', p', q'⟩ := t
  obtain ⟨packet, written, htoLeft, hrecv, hright, htoRight⟩ := hreceives
  simp only at htoLeft hrecv hright htoRight
  subst htoLeft hright htoRight
  cases hrequest : isRequest packet with
  | true =>
      obtain ⟨l₁, hrecv₁, hhandler, hunsent, hleft, hother⟩ :=
        h.left.receives_request h.right hrequest
      obtain ⟨rfl, rfl⟩ := Prod.mk.inj (Option.some.inj (hrecv₁.symm.trans hrecv))
      refine ⟨⟨hleft, hother⟩, ?_⟩
      have hweight := h.right.weight_replies hrequest r'.handler
      simp only [hsmsWeight, sideWeight, Line.flip, hhandler, hunsent, List.map_cons,
        List.sum_cons, List.map_append, List.sum_append]
      simp only at hweight
      omega
  | false =>
      obtain ⟨l₁, hrecv₁, hhandler, hunsent, hleft, hother⟩ :=
        h.left.receives_reply h.right hrequest
      obtain ⟨rfl, rfl⟩ := Prod.mk.inj (Option.some.inj (hrecv₁.symm.trans hrecv))
      rw [List.append_nil]
      refine ⟨⟨hleft, hother⟩, ?_⟩
      simp only [hsmsWeight, sideWeight, Line.flip, hhandler, hunsent, List.map_cons,
        List.sum_cons, packetWeight_of_not_request hrequest]
      omega

theorem InConversation.works (h : InConversation numbers numbers' s) (hworks : PacketWorks s t) :
    InConversation numbers numbers' t ∧ hsmsWeight t + 1 = hsmsWeight s := by
  have hstep : ∀ {numbers numbers' : List (UInt32 × HsmsSend)} {s t : PacketExchange},
      InConversation numbers numbers' s → PacketSends s t ∨ PacketReceives s t →
      InConversation numbers numbers' t ∧ hsmsWeight t + 1 = hsmsWeight s := by
    intro numbers numbers' s t h hst
    rcases hst with hsends | hreceives
    · exact h.sends hsends
    · exact h.receives hreceives
  rcases hworks with hleft | hright
  · exact hstep h hleft
  · obtain ⟨hflip, hweight⟩ := hstep h.flip hright
    rw [hsmsWeight_flip, hsmsWeight_flip] at hweight
    exact ⟨hflip.flip, hweight⟩

theorem InConversation.pauses (h : InConversation numbers numbers' s) (hpauses : HsmsPauses s t) :
    InConversation numbers numbers' t ∧ hsmsWeight t = hsmsWeight s := by
  obtain ⟨seconds, hdue, rfl⟩ := hpauses
  refine ⟨⟨?_, ?_⟩, rfl⟩
  · obtain ⟨haskable, past, answered, asked, hstage, hnumbers⟩ := h.left
    exact ⟨haskable, past, answered, asked,
      { hstage with awaits := hstage.awaits.tick hdue }, hnumbers⟩
  · obtain ⟨haskable, past, answered, asked, hstage, hnumbers⟩ := h.right
    exact ⟨haskable, past, answered, asked, { hstage with }, hnumbers⟩

theorem InConversation.pause (h : InConversation numbers numbers' s)
    (hpause : OfBoth HsmsPauses s t) :
    InConversation numbers numbers' t ∧ hsmsWeight t = hsmsWeight s := by
  rcases hpause with hleft | hright
  · exact h.pauses hleft
  · obtain ⟨hflip, hweight⟩ := h.flip.pauses hright
    rw [hsmsWeight_flip, hsmsWeight_flip] at hweight
    exact ⟨hflip.flip, hweight⟩

theorem InConversation.run {n : ℕ} {s₀ : PacketExchange} (h : InConversation numbers numbers' s₀)
    (hrun : PacketRun n s₀ s) :
    InConversation numbers numbers' s ∧ n + hsmsWeight s = hsmsWeight s₀ := by
  induction hrun with
  | refl s => exact ⟨h, Nat.zero_add _⟩
  | work _ hwork ih =>
      obtain ⟨hconversation, hweight⟩ := ih h
      obtain ⟨hconversation', hweight'⟩ := hconversation.works hwork
      refine ⟨hconversation', ?_⟩
      omega
  | pause _ hpause ih =>
      obtain ⟨hconversation, hweight⟩ := ih h
      obtain ⟨hconversation', hweight'⟩ := hconversation.pause hpause
      rw [← hweight'] at hweight
      exact ⟨hconversation', hweight⟩

end

/-! ## Handlers stay as they are -/

theorem recvHsms_handler {p p' : HsmsProgram} {packet : Packet} {written : List Packet}
    (h : p.recvHsms packet = some (p', written)) : p'.handler = p.handler := by
  unfold HsmsProgram.recvHsms at h
  dsimp only at h
  split_ifs at h with hdata hprimary hselect hlink hend
  · cases h
    rfl
  · split at h
    · cases h
      rfl
    · split at h
      · cases h
      · cases h
        rfl
  · cases h
    rfl
  · cases h
    rfl
  · cases h
    rfl

theorem PacketWorks.handlers {s t : PacketExchange} (h : PacketWorks s t) :
    t.left.handler = s.left.handler ∧ t.right.handler = s.right.handler := by
  have hstep : ∀ {s t : PacketExchange}, PacketSends s t ∨ PacketReceives s t →
      t.left.handler = s.left.handler ∧ t.right.handler = s.right.handler := by
    intro s t h
    rcases h with ⟨packet, hsend, hright, -⟩ | ⟨packet, written, -, hrecv, hright, -⟩
    · obtain ⟨send, unsent, station, -, -, hleft, -⟩ := sendHsms_cases hsend
      rw [hright, hleft]
      exact ⟨rfl, rfl⟩
    · rw [hright]
      exact ⟨recvHsms_handler hrecv, rfl⟩
  rcases h with hleft | hright
  · exact hstep hleft
  · exact (hstep hright).symm

theorem PacketRun.handlers {n : ℕ} {s₀ s : PacketExchange} (h : PacketRun n s₀ s) :
    s.left.handler = s₀.left.handler ∧ s.right.handler = s₀.right.handler := by
  induction h with
  | refl s => exact ⟨rfl, rfl⟩
  | work _ hwork ih =>
      obtain ⟨hleft, hright⟩ := hwork.handlers
      exact ⟨hleft.trans ih.1, hright.trans ih.2⟩
  | pause _ hpause ih =>
      rcases hpause with ⟨seconds, -, rfl⟩ | ⟨seconds, -, heq⟩
      · exact ih
      · have hleft := congrArg (fun s : PacketExchange => s.right.handler) heq
        have hright := congrArg (fun s : PacketExchange => s.left.handler) heq
        exact ⟨hleft.trans ih.1, hright.trans ih.2⟩

/-! ## The outcome -/

section

variable {numbers numbers' : List (UInt32 × HsmsSend)} {s₀ s : PacketExchange}

/-- The next message cannot be sent only when it takes a timer and none is left. -/
theorem Conversing.sends_iff (h : Conversing numbers s) {send : HsmsSend} {unsent : List HsmsSend}
    (hunsent : s.left.unsent = send :: unsent) : s.left.sendHsms = none ↔
      send.waits = true ∧ s.left.station.completed.length + 40 ≤ s.left.station.opened.length := by
  obtain ⟨l, r, p, q⟩ := s
  have hright := h.askable.right _ (h.mem_next hunsent)
  obtain ⟨-, past, answered, asked, hstage, -⟩ := h
  simp only at hunsent
  have hopened := hstage.awaits.length_opened
  have hcompleted := congrArg List.length hstage.awaits.completed
  rw [List.length_reverse, List.length_map, List.length_range] at hcompleted
  have hiff := hstage.awaits.opening_iff (awaited (secsIncSystemBytes l.systemBytes, send))
    hright.t3_pos hright.timeoutMsg
  simp only at hopened hcompleted hiff ⊢
  simp only [HsmsProgram.sendHsms, hunsent]
  by_cases hwait : send.head.waitBit = 0
  · have hwaits : send.waits = false := decide_eq_false (not_not.2 hwait)
    rw [if_pos hwait, hwaits]
    simp only [reduceCtorEq, Bool.false_eq_true, false_and]
  · have hwaits : send.waits = true := decide_eq_true hwait
    rw [if_neg hwait, hwaits]
    simp only [awaited] at hiff
    cases hstep : l.station.step (.opening (secsIncSystemBytes l.systemBytes) send.programIdx
        send.t3 send.timeoutMsg 0) with
    | none =>
        rw [hstep] at hiff
        simp only [Option.isSome_none, Bool.false_eq_true, false_iff, Nat.not_lt] at hiff
        simp only [true_and, true_iff]
        omega
    | some station =>
        rw [hstep] at hiff
        simp only [Option.isSome_some, true_iff] at hiff
        simp only [reduceCtorEq, true_and, false_iff]
        omega

theorem InConversation.exists_receives (h : InConversation numbers numbers' s) {packet : Packet}
    {q : List Packet} (hq : s.toLeft = packet :: q) :
    ∃ received, s.left.recvHsms packet = some received := by
  obtain ⟨l, r, p, q'⟩ := s
  simp only at hq
  subst hq
  cases hrequest : isRequest packet with
  | true =>
      obtain ⟨l', hrecv, -⟩ := h.left.receives_request h.right hrequest
      exact ⟨_, hrecv⟩
  | false =>
      obtain ⟨l', hrecv, -⟩ := h.left.receives_reply h.right hrequest
      exact ⟨_, hrecv⟩

theorem InConversation.orderly (h : InConversation numbers numbers' s)
    (hnumbers : numbers = numberedSends s₀.left.systemBytes s₀.left.unsent)
    (hhandler : s.right.handler = s₀.right.handler) : Orderly s₀ s := by
  obtain ⟨haskable, past, answered, asked, hstage, hparts⟩ := h.left
  rw [hnumbers] at hparts
  constructor
  case started =>
    rw [hstage.started, HsmsProgram.requests, hparts, List.append_assoc (past ++ answered)]
    exact (List.prefix_append _ _).map request
  case resumed =>
    rw [hstage.resumed, hparts, hhandler, List.append_assoc, List.append_assoc,
      List.filterMap_append]
    exact List.prefix_append _ _
  case discarded => exact hstage.discarded
  case sends => exact fun send unsent hunsent => h.left.sends_iff hunsent

/-- When nothing is under way and nothing is left to be sent, all is over. -/
theorem Conversing.concluded (h : Conversing numbers s)
    (hnumbers : numbers = numberedSends s₀.left.systemBytes s₀.left.unsent)
    (hhandler : s.right.handler = s₀.right.handler) (hunsent : s.left.unsent = [])
    (htoRight : s.toRight = []) (htoLeft : s.toLeft = []) : Concluded s₀ s := by
  obtain ⟨haskable, past, answered, asked, hstage, hparts⟩ := h
  have hasked := hstage.toRight
  rw [htoRight, List.filter_nil, eq_comm, List.map_eq_nil_iff] at hasked
  have hanswered := hstage.toLeft
  rw [htoLeft, List.filter_nil, eq_comm, List.filterMap_eq_nil_iff] at hanswered
  rw [hunsent, hasked, numberedSends, List.append_nil, List.append_nil] at hparts
  have hnil : awaitedBy answered = [] := by
    apply haskable.awaitedBy_nil _ hanswered
    intro x hx
    rw [hparts]
    exact List.mem_append_right _ hx
  have hresumption : answered.filterMap (resumption s.right.handler) = [] := by
    rw [List.filterMap_eq_nil_iff]
    intro x hx
    rw [resumption, hanswered x hx]
    rfl
  have hawaits := hstage.awaits
  rw [hasked, List.append_nil, hnil] at hawaits
  have hcompleted := congrArg List.length hawaits.completed
  rw [List.length_reverse, List.length_map, List.length_range] at hcompleted
  have hopened := hawaits.length_opened
  rw [List.length_nil, Nat.add_zero] at hopened
  refine ⟨hunsent, ?_, ?_, hcompleted.trans hopened.symm⟩
  · rw [hstage.started, HsmsProgram.requests, ← hnumbers, hparts]
  · rw [hstage.resumed, ← hnumbers, hparts, ← hhandler, List.filterMap_append, hresumption,
      List.append_nil]

/-- When nothing is under way, the next message can be sent. -/
theorem Conversing.exists_sends (h : Conversing numbers s) (hunsent : s.left.unsent ≠ [])
    (htoRight : s.toRight = []) (htoLeft : s.toLeft = []) : ∃ t, PacketSends s t := by
  obtain ⟨send, unsent, hcons⟩ := List.exists_cons_of_ne_nil hunsent
  have hsome : s.left.sendHsms ≠ none := by
    rw [ne_eq, h.sends_iff hcons]
    rintro ⟨-, hfull⟩
    obtain ⟨haskable, past, answered, asked, hstage, hparts⟩ := h
    have hasked := hstage.toRight
    rw [htoRight, List.filter_nil, eq_comm, List.map_eq_nil_iff] at hasked
    have hanswered := hstage.toLeft
    rw [htoLeft, List.filter_nil, eq_comm, List.filterMap_eq_nil_iff] at hanswered
    have hnil : awaitedBy answered = [] := by
      apply haskable.awaitedBy_nil _ hanswered
      intro x hx
      rw [hparts]
      apply List.mem_append_left
      apply List.mem_append_left
      exact List.mem_append_right _ hx
    have hawaits := hstage.awaits
    rw [hasked, List.append_nil, hnil] at hawaits
    have hcompleted := congrArg List.length hawaits.completed
    rw [List.length_reverse, List.length_map, List.length_range] at hcompleted
    have hopened := hawaits.length_opened
    rw [List.length_nil] at hopened
    omega
  obtain ⟨⟨l', packet⟩, hsend⟩ := Option.ne_none_iff_exists'.1 hsome
  exact ⟨⟨l', s.right, s.toRight ++ [packet], s.toLeft⟩, packet, hsend, rfl, rfl, rfl⟩

/-- A run can go on, or all is over. -/
theorem InConversation.goes_on (h : InConversation numbers numbers' s) :
    (∃ t, PacketWorks s t) ∨
      s.left.unsent = [] ∧ s.right.unsent = [] ∧ s.toRight = [] ∧ s.toLeft = [] := by
  have hreceives : ∀ {numbers numbers' : List (UInt32 × HsmsSend)} {s : PacketExchange},
      InConversation numbers numbers' s → s.toLeft ≠ [] → ∃ t, PacketReceives s t := by
    intro numbers numbers' s h hne
    obtain ⟨packet, q, hq⟩ := List.exists_cons_of_ne_nil hne
    obtain ⟨⟨l', written⟩, hrecv⟩ := h.exists_receives hq
    exact ⟨⟨l', s.right, s.toRight ++ written, q⟩, packet, written, hq, hrecv, rfl, rfl⟩
  by_cases htoLeft : s.toLeft = []
  · by_cases htoRight : s.toRight = []
    · by_cases hleft : s.left.unsent = []
      · by_cases hright : s.right.unsent = []
        · exact .inr ⟨hleft, hright, htoRight, htoLeft⟩
        · obtain ⟨t, ht⟩ := h.right.exists_sends hright htoLeft htoRight
          exact .inl ⟨t.flip, .inr (.inl ht)⟩
      · obtain ⟨t, ht⟩ := h.left.exists_sends hleft htoRight htoLeft
        exact .inl ⟨t, .inl (.inl ht)⟩
    · obtain ⟨t, ht⟩ := hreceives h.flip htoRight
      exact .inl ⟨t.flip, .inr (.inr ht)⟩
  · obtain ⟨t, ht⟩ := hreceives h htoLeft
    exact .inl ⟨t, .inl (.inr ht)⟩

/-! ## From the start -/

theorem Asks.conversing (h : Asks s₀) (hquiet : s₀.toLeft = [])
    (hstart : ∃ handler systemBytes clock unsent,
      s₀.right = .start handler systemBytes clock unsent) :
    Conversing (numberedSends s₀.left.systemBytes s₀.left.unsent) s₀ := by
  obtain ⟨l, r, p, q⟩ := s₀
  obtain ⟨⟨handler, systemBytes, clock, unsent, hleft⟩, htoRight, hsends, hlt, hanswers⟩ := h
  obtain ⟨handler', systemBytes', clock', unsent', hright⟩ := hstart
  simp only at hleft hright hquiet htoRight hsends hlt hanswers
  subst hleft hright hquiet htoRight
  refine ⟨⟨?_, nodup_numberedSends hlt, ?_, hanswers⟩, [], [], [], ?_, rfl⟩
  · intro x hx
    apply hsends
    rw [← map_snd_numberedSends systemBytes unsent]
    exact List.mem_map_of_mem hx
  · intro x hx hzero
    have hpos := lt_of_mem_numberedSends hlt x hx
    rw [hzero] at hpos
    exact Nat.not_lt_zero _ hpos
  · exact ⟨rfl, rfl, rfl, rfl, rfl, Station.Awaits.start clock⟩

end

def hsmsSteps {β : Type} (s : Line HsmsProgram β) : ℕ :=
  (s.left.unsent.map sendWeight).sum + (s.right.unsent.map sendWeight).sum

theorem hsmsWeight_quiet {s : PacketExchange} (htoRight : s.toRight = []) (htoLeft : s.toLeft = []) :
    hsmsWeight s = hsmsSteps s := by
  simp only [hsmsWeight, sideWeight, hsmsSteps, Line.flip, htoRight, htoLeft, List.map_nil,
    List.sum_nil, Nat.add_zero]

/-- A run of messages that are handed over as wholes. -/
theorem PacketRun.outcome {s₀ s : PacketExchange} {n : ℕ} (hleft : Asks s₀) (hright : Asks s₀.flip)
    (hrun : PacketRun n s₀ s) :
    InConversation (numberedSends s₀.left.systemBytes s₀.left.unsent)
      (numberedSends s₀.right.systemBytes s₀.right.unsent) s ∧
    Orderly s₀ s ∧ Orderly s₀.flip s.flip ∧
      (n < hsmsSteps s₀ ∧ (∃ t, PacketWorks s t) ∨
        n = hsmsSteps s₀ ∧ Concluded s₀ s ∧ Concluded s₀.flip s.flip) := by
  have hstart : InConversation (numberedSends s₀.left.systemBytes s₀.left.unsent)
      (numberedSends s₀.right.systemBytes s₀.right.unsent) s₀ :=
    ⟨hleft.conversing hright.quiet hright.start, hright.conversing hleft.quiet hleft.start⟩
  obtain ⟨hconversation, hweight⟩ := hstart.run hrun
  obtain ⟨hhandler, hhandler'⟩ := hrun.handlers
  rw [hsmsWeight_quiet hleft.quiet hright.quiet] at hweight
  refine ⟨hconversation, hconversation.orderly rfl hhandler',
    hconversation.flip.orderly rfl hhandler, ?_⟩
  rcases hconversation.goes_on with ⟨t, hworks⟩ | ⟨hunsent, hunsent', htoRight, htoLeft⟩
  · left
    have hstep := (hconversation.works hworks).2
    exact ⟨by omega, t, hworks⟩
  · right
    have hzero : hsmsSteps s = 0 := by
      rw [hsmsSteps, hunsent, hunsent']
      rfl
    rw [hsmsWeight_quiet htoRight htoLeft, hzero] at hweight
    exact ⟨hweight, hconversation.left.concluded rfl hhandler' hunsent htoRight htoLeft,
      hconversation.right.concluded rfl hhandler hunsent' htoLeft htoRight⟩

end ScOpen
