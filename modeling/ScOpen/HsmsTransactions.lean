import ScOpen.HsmsConversations

/-!
# Transactions in every order of steps

The transactions of one program are, in the order in which they are opened, over, answered, asked
for or still to be sent. What is under way between the programs, the tables and the messages that
the other program has got are known from where these parts meet. Each step moves one of the
boundaries, and the steps that are left can be counted.
-/

namespace ScOpen

open Dialogues

def isRequest (packet : Packet) : Bool := isPrimary packet.1

def HsmsSend.waits (send : HsmsSend) : Bool := decide (send.head.waitBit ≠ 0)

def awaited (x : UInt32 × HsmsSend) : Awaited := ⟨x.1, x.2.programIdx⟩

def awaitedBy (numbers : List (UInt32 × HsmsSend)) : List Awaited :=
  (numbers.filter fun x => x.2.waits).map awaited

/-! ## Headers -/

theorem isRequest_dataPacket (head : MessageHead) (systemBytes : ℕ) (body : Bytes) :
    isRequest (dataPacket head systemBytes body) = decide (head.function % 2 = 1) := by
  have hbyte : (UInt8.ofNat head.function).toNat % 2 = head.function % 2 := by
    rw [UInt8.toNat_ofNat']
    omega
  have hfunction : isRequest (dataPacket head systemBytes body) =
      decide ((UInt8.ofNat head.function).toNat % 2 = 1) := rfl
  rw [hfunction, hbyte]

theorem recvSystemBytes_dataPacket (head : MessageHead) (systemBytes : UInt32) (body : Bytes) :
    recvSystemBytes .hsms (dataPacket head systemBytes.toNat body).1 = systemBytes.toNat := by
  have hfield := systemBytesField_hsmsHeader head systemBytes.toNat []
  rw [List.append_nil] at hfield
  rw [recvSystemBytes_eq]
  exact (congrArg beValue hfield).trans (beValue_beBytes_of_lt systemBytes.toNat_lt)

theorem recvHead_dataPacket {head : MessageHead} (hfits : head.Fits) (hwait : head.waitBit ≤ 1)
    (systemBytes : ℕ) (body : Bytes) : recvHead (dataPacket head systemBytes body).1 = head :=
  recvHead_blockHeader hfits hwait (hsmsHeader_eq head systemBytes)

/-! ## Numbers -/

theorem toNat_secsIncSystemBytes {systemBytes : UInt32} (h : systemBytes.toNat + 1 < 2 ^ 32) :
    (secsIncSystemBytes systemBytes).toNat = systemBytes.toNat + 1 := by
  rw [secsIncSystemBytes]
  by_cases hzero : systemBytes = 0
  · rw [if_pos hzero, hzero]
    rfl
  · rw [if_neg hzero, UInt32.toNat_add]
    exact Nat.mod_eq_of_lt h

theorem lt_of_mem_numberedSends {systemBytes : UInt32} {sends : List HsmsSend}
    (h : systemBytes.toNat + sends.length < 2 ^ 32) :
    ∀ x ∈ numberedSends systemBytes sends, systemBytes.toNat < x.1.toNat := by
  induction sends generalizing systemBytes with
  | nil =>
      intro x hx
      cases hx
  | cons send sends ih =>
      rw [List.length_cons] at h
      have hnext := @toNat_secsIncSystemBytes systemBytes (by omega)
      intro x hx
      rcases List.mem_cons.1 hx with rfl | hx
      · rw [hnext]
        exact Nat.lt_succ_self _
      · have hlt := ih (by omega) x hx
        omega

theorem nodup_numberedSends {systemBytes : UInt32} {sends : List HsmsSend}
    (h : systemBytes.toNat + sends.length < 2 ^ 32) :
    ((numberedSends systemBytes sends).map Prod.fst).Nodup := by
  induction sends generalizing systemBytes with
  | nil => exact List.nodup_nil
  | cons send sends ih =>
      rw [List.length_cons] at h
      have hnext := @toNat_secsIncSystemBytes systemBytes (by omega)
      rw [numberedSends, List.map_cons, List.nodup_cons]
      refine ⟨?_, ih (by omega)⟩
      intro hmem
      obtain ⟨x, hx, heq⟩ := List.mem_map.1 hmem
      have hlt := lt_of_mem_numberedSends (by omega) x hx
      rw [heq] at hlt
      exact Nat.lt_irrefl _ hlt

theorem map_snd_numberedSends (systemBytes : UInt32) (sends : List HsmsSend) :
    (numberedSends systemBytes sends).map Prod.snd = sends := by
  induction sends generalizing systemBytes with
  | nil => rfl
  | cons send sends ih => rw [numberedSends, List.map_cons, ih]

/-! ## The invariant -/

structure Askable (numbers : List (UInt32 × HsmsSend))
    (handler : Packet → Option (MessageHead × Bytes)) : Prop where
  right : ∀ x ∈ numbers, x.2.Right
  distinct : (numbers.map Prod.fst).Nodup
  pos : ∀ x ∈ numbers, x.1 ≠ 0
  answers : Answers handler (numbers.map request)

structure TransactionStage (s : PacketExchange) (past answered asked : List (UInt32 × HsmsSend)) :
    Prop where
  toRight : s.toRight.filter isRequest = asked.map request
  toLeft : (s.toLeft.filter fun packet => !isRequest packet) =
    answered.filterMap fun x => replyTo s.right.handler (request x)
  started : s.right.started = (past ++ answered).map request
  resumed : s.left.resumed = past.filterMap (resumption s.right.handler)
  discarded : s.left.discarded = []
  awaits : s.left.station.Awaits (awaitedBy past) (awaitedBy (answered ++ asked))

structure Conversing (numbers : List (UInt32 × HsmsSend)) (s : PacketExchange) : Prop where
  askable : Askable numbers s.right.handler
  stage : ∃ past answered asked, TransactionStage s past answered asked ∧
    numbers = past ++ answered ++ asked ++ numberedSends s.left.systemBytes s.left.unsent

theorem awaitedBy_append (numbers numbers' : List (UInt32 × HsmsSend)) :
    awaitedBy (numbers ++ numbers') = awaitedBy numbers ++ awaitedBy numbers' := by
  rw [awaitedBy, List.filter_append, List.map_append]
  rfl

theorem awaitedBy_of_waits {x : UInt32 × HsmsSend} (h : x.2.waits = true)
    (numbers : List (UInt32 × HsmsSend)) :
    awaitedBy (x :: numbers) = awaited x :: awaitedBy numbers := by
  rw [awaitedBy, List.filter_cons_of_pos (p := fun x : UInt32 × HsmsSend => x.2.waits) h]
  rfl

theorem awaitedBy_of_not_waits {x : UInt32 × HsmsSend} (h : x.2.waits = false)
    (numbers : List (UInt32 × HsmsSend)) : awaitedBy (x :: numbers) = awaitedBy numbers := by
  have hneg : ¬ x.2.waits = true := by
    rw [h]
    exact Bool.false_ne_true
  rw [awaitedBy, List.filter_cons_of_neg (p := fun x : UInt32 × HsmsSend => x.2.waits) hneg]
  rfl

section

variable {numbers : List (UInt32 × HsmsSend)} {handler : Packet → Option (MessageHead × Bytes)}

theorem Askable.isRequest (h : Askable numbers handler) {x : UInt32 × HsmsSend}
    (hx : x ∈ numbers) : isRequest (request x) = true := by
  rw [request, isRequest_dataPacket]
  exact decide_eq_true (h.right x hx).odd

/-- A message is replied to exactly when it is waited for. -/
theorem Askable.waits_iff (h : Askable numbers handler) {x : UInt32 × HsmsSend}
    (hx : x ∈ numbers) : x.2.waits = true ↔ ∃ reply, handler (request x) = some reply := by
  rw [← h.answers.replies _ (List.mem_map_of_mem hx), request,
    recvHead_dataPacket (h.right x hx).fits (h.right x hx).wait]
  exact decide_eq_true_iff

/-- A reply is a secondary message with the system bytes of the message it answers. -/
theorem Askable.reply (h : Askable numbers handler) {x : UInt32 × HsmsSend} (hx : x ∈ numbers)
    {packet : Packet} (hreply : replyTo handler (request x) = some packet) :
    x.2.waits = true ∧ ScOpen.isRequest packet = false ∧ packet.1.val.getD 5 0 = 0 ∧
      recvSystemBytes .hsms packet.1 = x.1.toNat := by
  obtain ⟨reply, hhandler, rfl⟩ := Option.map_eq_some_iff.1 hreply
  refine ⟨(h.waits_iff hx).2 ⟨reply, hhandler⟩, ?_, rfl, ?_⟩
  · rw [isRequest_dataPacket, h.answers.even _ (List.mem_map_of_mem hx) reply hhandler]
    rfl
  · rw [request, recvSystemBytes_dataPacket]
    exact recvSystemBytes_dataPacket reply.1 x.1 reply.2

theorem Askable.not_waits (h : Askable numbers handler) {x : UInt32 × HsmsSend}
    (hx : x ∈ numbers) (hnone : replyTo handler (request x) = none) : x.2.waits = false := by
  rw [Bool.eq_false_iff]
  intro hwaits
  obtain ⟨reply, hreply⟩ := (h.waits_iff hx).1 hwaits
  rw [replyTo, hreply] at hnone
  cases hnone

theorem Askable.awaitedBy_nil (h : Askable numbers handler) {part : List (UInt32 × HsmsSend)}
    (hpart : ∀ x ∈ part, x ∈ numbers)
    (hnone : ∀ x ∈ part, replyTo handler (request x) = none) : awaitedBy part = [] := by
  rw [awaitedBy, List.map_eq_nil_iff, List.filter_eq_nil_iff]
  intro x hx
  rw [h.not_waits (hpart x hx) (hnone x hx)]
  exact Bool.false_ne_true

theorem Askable.nodup (h : Askable numbers handler) {part rest : List (UInt32 × HsmsSend)}
    (hnumbers : numbers = part ++ rest) : ((awaitedBy part).map Awaited.systemBytes).Nodup := by
  have hsub : ((awaitedBy part).map Awaited.systemBytes).Sublist (numbers.map Prod.fst) := by
    rw [awaitedBy, List.map_map, hnumbers, List.map_append]
    exact (List.filter_sublist.map Prod.fst).trans (List.sublist_append_left _ _)
  exact h.distinct.sublist hsub

end

/-! ## A message is sent -/

theorem sendHsms_cases {p p' : HsmsProgram} {packet : Packet}
    (h : p.sendHsms = some (p', packet)) :
    ∃ send unsent station, p.unsent = send :: unsent ∧
      packet = request (secsIncSystemBytes p.systemBytes, send) ∧
      p' = { p with
        systemBytes := secsIncSystemBytes p.systemBytes
        unsent := unsent
        station := station } ∧
      (send.waits = false ∧ station = p.station ∨ send.waits = true ∧
        p.station.step (.opening (secsIncSystemBytes p.systemBytes) send.programIdx send.t3
          send.timeoutMsg 0) = some station) := by
  unfold HsmsProgram.sendHsms at h
  split at h
  · cases h
  · rename_i send unsent hunsent
    by_cases hwait : send.head.waitBit = 0
    · rw [if_pos hwait] at h
      obtain ⟨rfl, rfl⟩ := Prod.mk.inj (Option.some.inj h)
      exact ⟨send, unsent, p.station, hunsent, rfl, rfl,
        .inl ⟨decide_eq_false (not_not.2 hwait), rfl⟩⟩
    · rw [if_neg hwait] at h
      split at h
      · cases h
      · rename_i station hstep
        obtain ⟨rfl, rfl⟩ := Prod.mk.inj (Option.some.inj h)
        exact ⟨send, unsent, station, hunsent, rfl, rfl, .inr ⟨decide_eq_true hwait, hstep⟩⟩

section

variable {numbers numbers' : List (UInt32 × HsmsSend)} {l l' r : HsmsProgram}
  {p q : List Packet} {packet : Packet}

/-- The message that is sent is one of those that are numbered. -/
theorem Conversing.mem_next {send : HsmsSend} {unsent : List HsmsSend}
    (h : Conversing numbers ⟨l, r, p, q⟩) (hunsent : l.unsent = send :: unsent) :
    (secsIncSystemBytes l.systemBytes, send) ∈ numbers := by
  obtain ⟨-, past, answered, asked, -, rfl⟩ := h
  simp only [hunsent, numberedSends]
  exact List.mem_append_right _ List.mem_cons_self

theorem Conversing.sends (h : Conversing numbers ⟨l, r, p, q⟩)
    (hsend : l.sendHsms = some (l', packet)) : Conversing numbers ⟨l', r, p ++ [packet], q⟩ := by
  obtain ⟨send, unsent, station, hunsent, rfl, rfl, hstation⟩ := sendHsms_cases hsend
  have hmem := h.mem_next hunsent
  have hright := h.askable.right _ hmem
  have hrequest := h.askable.isRequest hmem
  obtain ⟨haskable, past, answered, asked, hstage, hnumbers⟩ := h
  simp only [hunsent, numberedSends] at hnumbers
  refine ⟨haskable, past, answered, asked ++ [(secsIncSystemBytes l.systemBytes, send)], ?_, ?_⟩
  · constructor
    case toRight =>
      rw [List.filter_append, hstage.toRight, List.filter_cons_of_pos hrequest, List.map_append]
      rfl
    case toLeft => exact hstage.toLeft
    case started => exact hstage.started
    case resumed => exact hstage.resumed
    case discarded => exact hstage.discarded
    case awaits =>
      rw [← List.append_assoc, awaitedBy_append]
      rcases hstation with ⟨hwaits, rfl⟩ | ⟨hwaits, hstep⟩
      · rw [awaitedBy_of_not_waits hwaits]
        exact (List.append_nil (awaitedBy (answered ++ asked))).symm ▸ hstage.awaits
      · have hsome : (l.station.step (.opening (secsIncSystemBytes l.systemBytes) send.programIdx
            send.t3 send.timeoutMsg 0)).isSome := by
          rw [hstep]
          rfl
        have hlt := (hstage.awaits.opening_iff (awaited (secsIncSystemBytes l.systemBytes, send))
          hright.t3_pos hright.timeoutMsg).1 hsome
        obtain ⟨station', hstep', hawaits, -⟩ := hstage.awaits.opening
          (x := awaited (secsIncSystemBytes l.systemBytes, send)) hlt hright.t3_pos
          hright.timeoutMsg
        obtain rfl := Option.some.inj (hstep.symm.trans hstep')
        rw [awaitedBy_of_waits hwaits]
        exact hawaits
  · rw [hnumbers]
    simp only [List.append_assoc, List.singleton_append]

/-- The other program's transactions have no part in it. -/
theorem Conversing.sends_other (h : Conversing numbers ⟨l, r, p, q⟩)
    (h' : Conversing numbers' ⟨r, l, q, p⟩) (hsend : l.sendHsms = some (l', packet)) :
    Conversing numbers' ⟨r, l', q, p ++ [packet]⟩ := by
  obtain ⟨send, unsent, station, hunsent, rfl, rfl, -⟩ := sendHsms_cases hsend
  have hrequest := h.askable.isRequest (h.mem_next hunsent)
  obtain ⟨haskable, past, answered, asked, hstage, hnumbers⟩ := h'
  refine ⟨haskable, past, answered, asked, ?_, hnumbers⟩
  constructor
  case toRight => exact hstage.toRight
  case toLeft =>
    have hfilter : [request (secsIncSystemBytes l.systemBytes, send)].filter
        (fun packet => !isRequest packet) = [] := by
      rw [List.filter_cons_of_neg (by rw [hrequest]; exact Bool.false_ne_true), List.filter_nil]
    rw [List.filter_append, hfilter, List.append_nil]
    exact hstage.toLeft
  case started => exact hstage.started
  case resumed => exact hstage.resumed
  case discarded => exact hstage.discarded
  case awaits => exact hstage.awaits

/-! ## A message is received -/

theorem recvHsms_request (l : HsmsProgram) (hstype : packet.1.val.getD 5 0 = 0)
    (hrequest : isRequest packet = true) :
    l.recvHsms packet = some ({ l with
      savedSystemBytes := recvSystemBytes .hsms packet.1, started := l.started ++ [packet] },
      (replyTo l.handler packet).toList) := by
  have hprimary : isPrimary packet.1 = true := hrequest
  simp only [HsmsProgram.recvHsms, if_pos hstype, hprimary, if_true]
  rfl

/-- A reply is received for the first transaction that is waited for. -/
theorem recvHsms_reply {x : Awaited} {past waiting : List Awaited}
    (h : l.station.Awaits past (x :: waiting)) (hstype : packet.1.val.getD 5 0 = 0)
    (hreply : isRequest packet = false)
    (hbytes : recvSystemBytes .hsms packet.1 = x.systemBytes.toNat)
    (hnodup : ((past ++ x :: waiting).map Awaited.systemBytes).Nodup) (hpos : x.systemBytes ≠ 0) :
    ∃ station, l.recvHsms packet = some ({ l with
      station := station, resumed := l.resumed ++ [(x.programIdx, packet)] }, []) ∧
      station.Awaits (past ++ [x]) waiting := by
  obtain ⟨hdel, station, hstep, hawaits, -⟩ := h.reply hnodup hpos
  refine ⟨station, ?_, hawaits⟩
  have hsecondary : isPrimary packet.1 = false := hreply
  simp only [HsmsProgram.recvHsms, if_pos hstype, hsecondary, hbytes, UInt32.ofNat_toNat, hdel,
    hstep, Bool.false_eq_true, if_false]

theorem TransactionStage.first_request {past answered asked : List (UInt32 × HsmsSend)}
    (h : TransactionStage ⟨l, r, packet :: p, q⟩ past answered asked)
    (hrequest : isRequest packet = true) : ∃ x asked', asked = x :: asked' ∧ packet = request x ∧
      p.filter isRequest = asked'.map request := by
  have hqueue := h.toRight
  simp only [List.filter_cons_of_pos hrequest] at hqueue
  obtain ⟨x, asked', hasked, hx, hrest⟩ := List.map_eq_cons_iff.1 hqueue.symm
  exact ⟨x, asked', hasked, hx.symm, hrest.symm⟩

theorem TransactionStage.first_reply {past answered asked : List (UInt32 × HsmsSend)}
    (h : TransactionStage ⟨l, r, p, packet :: q⟩ past answered asked)
    (hreply : isRequest packet = false) : ∃ before x behind, answered = before ++ x :: behind ∧
      (∀ y ∈ before, replyTo r.handler (request y) = none) ∧
      replyTo r.handler (request x) = some packet ∧
      (q.filter fun packet => !isRequest packet) =
        behind.filterMap fun x => replyTo r.handler (request x) := by
  have hqueue := h.toLeft
  have hnot : (!isRequest packet) = true := by rw [hreply, Bool.not_false]
  simp only [List.filter_cons_of_pos (p := fun packet => !isRequest packet) hnot] at hqueue
  obtain ⟨before, x, behind, hanswered, hbefore, hx, hbehind⟩ :=
    List.filterMap_eq_cons_iff.1 hqueue.symm
  exact ⟨before, x, behind, hanswered, hbefore, hx, hbehind.symm⟩

/-- The left program answers. -/
theorem Conversing.receives_request (h : Conversing numbers ⟨l, r, p, packet :: q⟩)
    (h' : Conversing numbers' ⟨r, l, packet :: q, p⟩) (hrequest : isRequest packet = true) :
    ∃ l', l.recvHsms packet = some (l', (replyTo l.handler packet).toList) ∧
      l'.handler = l.handler ∧ l'.unsent = l.unsent ∧
      Conversing numbers ⟨l', r, p ++ (replyTo l.handler packet).toList, q⟩ ∧
      Conversing numbers' ⟨r, l', q, p ++ (replyTo l.handler packet).toList⟩ := by
  obtain ⟨haskable', past', answered', asked', hstage', hnumbers'⟩ := h'
  obtain ⟨x, asked', rfl, rfl, hrest⟩ := hstage'.first_request hrequest
  have hmem : x ∈ numbers' := by
    rw [hnumbers']
    apply List.mem_append_left
    exact List.mem_append_right _ List.mem_cons_self
  have hwritten : ∀ reply ∈ (replyTo l.handler (request x)).toList, isRequest reply = false := by
    intro reply hreply
    exact (haskable'.reply hmem (Option.mem_toList.1 hreply)).2.1
  refine ⟨_, recvHsms_request l rfl hrequest, rfl, rfl, ?_, ?_⟩
  · obtain ⟨haskable, past, answered, asked, hstage, hnumbers⟩ := h
    refine ⟨haskable, past, answered, asked, ?_, hnumbers⟩
    constructor
    case toRight =>
      have hfilter : (replyTo l.handler (request x)).toList.filter isRequest = [] := by
        rw [List.filter_eq_nil_iff]
        intro reply hreply
        rw [hwritten reply hreply]
        exact Bool.false_ne_true
      rw [List.filter_append, hfilter, List.append_nil]
      exact hstage.toRight
    case toLeft =>
      have hqueue := hstage.toLeft
      have hnot : ¬ (!isRequest (request x)) = true := by
        rw [hrequest]
        exact Bool.false_ne_true
      simp only [List.filter_cons_of_neg (p := fun packet => !isRequest packet) hnot] at hqueue
      exact hqueue
    case started => exact hstage.started
    case resumed => exact hstage.resumed
    case discarded => exact hstage.discarded
    case awaits => exact hstage.awaits
  · refine ⟨haskable', past', answered' ++ [x], asked', ?_, ?_⟩
    · constructor
      case toRight => exact hrest
      case toLeft =>
        have hfilter : ((replyTo l.handler (request x)).toList.filter
            fun packet => !isRequest packet) = (replyTo l.handler (request x)).toList := by
          rw [List.filter_eq_self]
          intro reply hreply
          rw [hwritten reply hreply, Bool.not_false]
        rw [List.filter_append, hstage'.toLeft, hfilter, List.filterMap_append]
        cases hreply : replyTo l.handler (request x) with
        | none => simp only [List.filterMap_cons, List.filterMap_nil, hreply, Option.toList_none]
        | some reply =>
            simp only [List.filterMap_cons, List.filterMap_nil, hreply, Option.toList_some]
      case started =>
        rw [← List.append_assoc, List.map_append, ← hstage'.started]
        rfl
      case resumed => exact hstage'.resumed
      case discarded => exact hstage'.discarded
      case awaits =>
        have hparts := hstage'.awaits
        rw [List.append_assoc answered', List.singleton_append]
        exact hparts
    · rw [hnumbers']
      simp only [List.append_assoc, List.cons_append, List.nil_append]

/-- The left program goes on where it waited. -/
theorem Conversing.receives_reply (h : Conversing numbers ⟨l, r, p, packet :: q⟩)
    (h' : Conversing numbers' ⟨r, l, packet :: q, p⟩) (hreply : isRequest packet = false) :
    ∃ l', l.recvHsms packet = some (l', []) ∧
      l'.handler = l.handler ∧ l'.unsent = l.unsent ∧
      Conversing numbers ⟨l', r, p, q⟩ ∧ Conversing numbers' ⟨r, l', q, p⟩ := by
  obtain ⟨haskable, past, answered, asked, hstage, hnumbers⟩ := h
  obtain ⟨before, x, behind, rfl, hbefore, hx, hrest⟩ := hstage.first_reply hreply
  have hmem : ∀ y ∈ before ++ x :: behind, y ∈ numbers := by
    intro y hy
    rw [hnumbers]
    apply List.mem_append_left
    apply List.mem_append_left
    exact List.mem_append_right _ hy
  have hmemx := hmem x (List.mem_append_right _ List.mem_cons_self)
  obtain ⟨hwaits, -, hstype, hbytes⟩ := haskable.reply hmemx hx
  have hnil : awaitedBy before = [] :=
    haskable.awaitedBy_nil (fun y hy => hmem y (List.mem_append_left _ hy)) hbefore
  have hawaits : l.station.Awaits (awaitedBy past) (awaited x :: awaitedBy (behind ++ asked)) := by
    have hparts := hstage.awaits
    rw [List.append_assoc, awaitedBy_append before, hnil, List.nil_append, List.cons_append,
      awaitedBy_of_waits hwaits] at hparts
    exact hparts
  have hnodup : ((awaitedBy past ++ awaited x :: awaitedBy (behind ++ asked)).map
      Awaited.systemBytes).Nodup := by
    have hparts := haskable.nodup hnumbers
    rw [List.append_assoc, List.append_assoc, awaitedBy_append past, awaitedBy_append before, hnil,
      List.nil_append, List.cons_append, awaitedBy_of_waits hwaits] at hparts
    exact hparts
  obtain ⟨station, hrecv, hawaits'⟩ := recvHsms_reply hawaits hstype hreply hbytes hnodup
    (haskable.pos x hmemx)
  refine ⟨_, hrecv, rfl, rfl, ?_, ?_⟩
  · refine ⟨haskable, past ++ (before ++ [x]), behind, asked, ?_, ?_⟩
    · constructor
      case toRight => exact hstage.toRight
      case toLeft => exact hrest
      case started =>
        rw [hstage.started]
        simp only [List.append_assoc, List.singleton_append]
      case resumed =>
        have hnone : before.filterMap (resumption r.handler) = [] := by
          rw [List.filterMap_eq_nil_iff]
          intro y hy
          rw [resumption, hbefore y hy]
          rfl
        have hsome : resumption r.handler x = some ((awaited x).programIdx, packet) := by
          rw [resumption, hx]
          rfl
        rw [List.filterMap_append, List.filterMap_append, hnone, hstage.resumed,
          List.filterMap_cons_some hsome]
        rfl
      case discarded => exact hstage.discarded
      case awaits =>
        rw [awaitedBy_append past, awaitedBy_append before, hnil, awaitedBy_of_waits hwaits]
        exact hawaits'
    · rw [hnumbers]
      simp only [List.append_assoc, List.cons_append, List.nil_append]
  · obtain ⟨haskable', past', answered', asked', hstage', hnumbers'⟩ := h'
    refine ⟨haskable', past', answered', asked', ?_, hnumbers'⟩
    constructor
    case toRight =>
      have hqueue := hstage'.toRight
      have hnot : ¬ isRequest packet = true := by
        rw [hreply]
        exact Bool.false_ne_true
      simp only [List.filter_cons_of_neg hnot] at hqueue
      exact hqueue
    case toLeft => exact hstage'.toLeft
    case started => exact hstage'.started
    case resumed => exact hstage'.resumed
    case discarded => exact hstage'.discarded
    case awaits => exact hstage'.awaits

end

end ScOpen
