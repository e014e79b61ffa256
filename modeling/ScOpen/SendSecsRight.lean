import ScOpen.SendSecsBlocks
import ScOpen.SecsEncodeRight

/-!
# The blocks that are sent

The loop over the blocks sends the blocks of a message, one for each handshake. But the encoder's
status and the size of the message are set to 0 right in front of it, so that exactly one block
without a body is sent, whatever the message is and whether it could be encoded or not.
-/

namespace ScOpen

/-! ## Acknowledged blocks -/

/-- What the reads for one block come to when the other station acknowledges it: `EOT` and `ACK`,
and in front of `EOT` any other characters; an `ENQ` may be a contention. -/
inductive Handshake (rbit : Bool) : List LineRead → Prop where
  | answer : Handshake rbit [.byte EOT, .byte ACK]
  | skip {c : UInt8} {reads : List LineRead} (heot : c ≠ EOT) (henq : c = ENQ → rbit = true)
      (h : Handshake rbit reads) : Handshake rbit (.byte c :: reads)
  | contention {reads : List LineRead} (hrbit : rbit = false) (h : Handshake rbit reads) :
      Handshake rbit (.byte ENQ :: reads)

theorem sendSecsI_answer (rbit : Bool) (block : Bytes) (rest : List LineRead) (written : Bytes)
    (blocks : List Bytes) :
    sendSecsI rbit block ⟨.byte EOT :: .byte ACK :: rest, none, written, blocks⟩ =
      (.acknowledged,
        ⟨rest, none, written ++ [ENQ] ++ blockFrame block, blocks ++ [block]⟩) := by
  rw [sendSecsI, SecsLine.writec_of_room rfl]
  simp only [waitForEot, if_true]
  rw [sendFrame, SecsLine.writeBytes_of_room rfl]
  rfl

theorem sendSecsI_skip {rbit : Bool} (block : Bytes) {c : UInt8} (heot : c ≠ EOT)
    (henq : c = ENQ → rbit = true) (reads : List LineRead) (written : Bytes)
    (blocks : List Bytes) :
    sendSecsI rbit block ⟨.byte c :: reads, none, written, blocks⟩ =
      sendSecsI rbit block ⟨reads, none, written, blocks⟩ := by
  have hwait : waitForEot rbit (.byte c :: reads) = waitForEot rbit reads := by
    have hnot : ¬ (c = ENQ ∧ rbit = false) := by
      rintro ⟨hc, hrbit⟩
      rw [henq hc] at hrbit
      cases hrbit
    rw [waitForEot, if_neg heot, if_neg hnot]
  rw [sendSecsI, SecsLine.writec_of_room rfl, sendSecsI, SecsLine.writec_of_room rfl]
  simp only [hwait]

theorem sendSecsI_contention {rbit : Bool} (hrbit : rbit = false) (block : Bytes)
    (reads : List LineRead) (written : Bytes) (blocks : List Bytes) :
    sendSecsI rbit block ⟨.byte ENQ :: reads, none, written, blocks⟩ =
      (.contention, ⟨reads, none, written ++ [ENQ], blocks⟩) := by
  have hne : ENQ ≠ EOT := by decide
  rw [sendSecsI, SecsLine.writec_of_room rfl]
  simp only [waitForEot, hne, if_false, hrbit, and_self, if_true]

/-- An acknowledged block is written once. -/
theorem sendBlock_handshake {opts : SecsOptions} (hattempts : opts.attempts ≠ 0) (block : Bytes)
    {reads : List LineRead} (h : Handshake opts.rbit reads) {retry : ℕ} (hretry : retry ≠ 0)
    (rest : List LineRead) (written : Bytes) (blocks : List Bytes) :
    ∃ written', sendBlock opts block retry ⟨reads ++ rest, none, written, blocks⟩ =
      (0, ⟨rest, none, written', blocks ++ [block]⟩) := by
  induction h generalizing retry written with
  | answer =>
      refine ⟨written ++ [ENQ] ++ blockFrame block, ?_⟩
      rw [sendBlock_eq, if_neg hretry, List.cons_append, List.cons_append, List.nil_append,
        sendSecsI_answer]
  | @skip c reads heot henq _ ih =>
      obtain ⟨written', hrun⟩ := ih hretry written
      refine ⟨written', ?_⟩
      rw [sendBlock_eq, if_neg hretry] at hrun ⊢
      rwa [List.cons_append, sendSecsI_skip block heot henq]
  | @contention reads hrbit _ ih =>
      obtain ⟨written', hrun⟩ := ih hattempts (written ++ [ENQ])
      refine ⟨written', ?_⟩
      rwa [sendBlock_eq, if_neg hretry, List.cons_append, sendSecsI_contention hrbit]

/-! ## The loop over the blocks -/

/-- The other station acknowledges at least `n` blocks and the connection does not break. -/
def Acknowledges (rbit : Bool) (n : ℕ) (line : SecsLine) : Prop :=
  line.room = none ∧ ∃ (answers : List (List LineRead)) (rest : List LineRead),
    line.reads = answers.flatten ++ rest ∧ answers.length = n ∧
      ∀ reads ∈ answers, Handshake rbit reads

/-- When every block is acknowledged, the loop sends the blocks of the message. -/
theorem blockLoop_acknowledged {opts : SecsOptions} (hattempts : opts.attempts ≠ 0)
    (head : MessageHead) (systemBytes : ℕ) (message : Bytes) (blockNum : ℕ)
    (hnum : blockNum + message.length < 2 ^ 32) (line : SecsLine)
    (hack : Acknowledges opts.rbit
      (messageBlocks opts.rbit head systemBytes message blockNum).length line) :
    ∃ line', blockLoop opts head systemBytes message message.length blockNum line = (0, line') ∧
      line'.blocks = line.blocks ++ messageBlocks opts.rbit head systemBytes message blockNum := by
  induction hn : message.length using Nat.strong_induction_on
    generalizing message blockNum line with
  | _ n ih =>
  subst hn
  obtain ⟨reads, room, written, blocks⟩ := line
  obtain ⟨hroom, answers, rest, hreads, hlen, hanswers⟩ := hack
  simp only at hroom hreads
  subst hroom hreads
  rw [messageBlocks] at hlen ⊢
  by_cases hshort : message.length ≤ 244
  · rw [if_pos hshort, List.length_singleton] at hlen
    obtain ⟨first, rfl⟩ := List.length_eq_one_iff.1 hlen
    obtain ⟨written', hrun⟩ := sendBlock_handshake hattempts
      (blockHeader opts.rbit head systemBytes blockNum true ++ message)
      (hanswers first (by simp)) hattempts rest written blocks
    refine ⟨⟨rest, none, written', blocks ++
      [blockHeader opts.rbit head systemBytes blockNum true ++ message]⟩, ?_, ?_⟩
    · rw [blockLoop]
      simp only [Nat.min_eq_right hshort, Nat.sub_self, List.take_length, decide_true,
        List.flatten_singleton, hrun]
      rfl
    · rw [if_pos hshort]
  · rw [if_neg hshort, List.length_cons] at hlen
    obtain ⟨first, answers, rfl⟩ := List.exists_cons_of_length_eq_add_one hlen
    rw [List.length_cons, Nat.add_right_cancel_iff] at hlen
    obtain ⟨written', hrun⟩ := sendBlock_handshake hattempts
      (blockHeader opts.rbit head systemBytes blockNum false ++ message.take 244)
      (hanswers first (by simp)) hattempts (answers.flatten ++ rest) written blocks
    have hleft : message.length - 244 = (message.drop 244).length := by rw [List.length_drop]
    have hnext : (blockNum + 1) % 2 ^ 32 = blockNum + 1 := Nat.mod_eq_of_lt (by omega)
    obtain ⟨line', hrest, hblocks⟩ := ih (message.drop 244).length
      (by rw [List.length_drop]; omega) (message.drop 244) (blockNum + 1)
      (by rw [List.length_drop]; omega)
      ⟨answers.flatten ++ rest, none, written', blocks ++
        [blockHeader opts.rbit head systemBytes blockNum false ++ message.take 244]⟩
      ⟨rfl, answers, rest, rfl, hlen, fun reads hr => hanswers reads (by simp [hr])⟩ rfl
    have hmore : ¬ message.length - 244 = 0 := by omega
    refine ⟨line', ?_, ?_⟩
    · rw [blockLoop]
      simp only [Nat.min_eq_left (Nat.le_of_not_le hshort), hmore, decide_false,
        List.flatten_cons, List.append_assoc, hrun, ne_eq, not_true_eq_false, if_false,
        not_false_eq_true, if_true, hnext]
      rw [hleft]
      exact hrest
    · rw [if_neg hshort, hblocks, List.append_assoc]
      rfl

/-! ## Whole messages -/

section

variable {σ : Type} (cmds : EncodeCommands σ) (scan : FloatScan) (fl : FloatText)
  (opts : SecsOptions) (garbage : ℕ) (systemBytes : UInt32) (p : Program σ)

def EncodesTo (encoded : EncodeResult σ) : Prop :=
  ∃ k, ∀ n, secsEncode cmds scan fl (n + k) ⟨0, 0, 0, 0⟩ [] p = some (.ok encoded)

def SendsTo (line : SecsLine) (r : SendResult σ) : Prop :=
  ∃ k, ∀ n, sendSecsII cmds scan fl (n + k) opts garbage systemBytes.toNat p line = some (.ok r)

/-- A message that cannot be encoded is not sent and an error is returned; any other message is
sent with its blocks when they are acknowledged. -/
structure SendsRight (encoded : EncodeResult σ) : Prop where
  refused : encoded.iret ≠ 0 → ∀ line, ∃ r,
    SendsTo cmds scan fl opts garbage systemBytes p line r ∧
      r.line.blocks = line.blocks ∧ r.iret ≠ 0
  sent : encoded.iret = 0 → ∀ line,
    Acknowledges opts.rbit (max 1 ((encoded.buffer.length + 243) / 244)) line →
      ∃ r blocks, SendsTo cmds scan fl opts garbage systemBytes p line r ∧
        r.line.blocks = line.blocks ++ blocks ∧
        Splits blocks encoded.head systemBytes.toNat encoded.buffer

variable {cmds scan fl opts garbage systemBytes p}

def onlyBlock (opts : SecsOptions) (garbage : ℕ) (systemBytes : UInt32)
    (encoded : EncodeResult σ) : Bytes :=
  blockHeader opts.rbit encoded.head systemBytes.toNat (if encoded.iret ≠ 0 then garbage else 1)
    true

theorem blockLoop_zero (head : MessageHead) (systemBytes : ℕ) (msgPtr : Bytes) (blockNum : ℕ)
    (line : SecsLine) :
    blockLoop opts head systemBytes msgPtr 0 blockNum line =
      sendBlock opts (blockHeader opts.rbit head systemBytes blockNum true) opts.attempts line := by
  rw [blockLoop]
  simp

theorem sendsTo_iff {encoded : EncodeResult σ} (hencoded : EncodesTo cmds scan fl p encoded)
    (line : SecsLine) (r : SendResult σ) :
    SendsTo cmds scan fl opts garbage systemBytes p line r ↔
      ∃ iret line', sendBlock opts (onlyBlock opts garbage systemBytes encoded) opts.attempts line =
        (iret, line') ∧
          r = ⟨iret, line', encoded.program,
            if iret ≠ 0 then none else some (encoded.head.waitBit ≠ 0)⟩ := by
  obtain ⟨k, hk⟩ := hencoded
  have hrun : ∀ n, sendSecsII cmds scan fl (n + k) opts garbage systemBytes.toNat p line =
      some (.ok ⟨(sendBlock opts (onlyBlock opts garbage systemBytes encoded) opts.attempts line).1,
        (sendBlock opts (onlyBlock opts garbage systemBytes encoded) opts.attempts line).2,
        encoded.program,
        if (sendBlock opts (onlyBlock opts garbage systemBytes encoded) opts.attempts line).1 ≠ 0
          then none else some (encoded.head.waitBit ≠ 0)⟩) := by
    intro n
    simp only [sendSecsII, hk n, blockLoop_zero]
    rfl
  constructor
  · rintro ⟨k', hk'⟩
    have hsame := hk' k
    rw [Nat.add_comm, hrun k', Option.some.injEq, Except.ok.injEq] at hsame
    exact ⟨_, _, rfl, hsame.symm⟩
  · rintro ⟨iret, line', hsend, rfl⟩
    refine ⟨k, fun n => ?_⟩
    rw [hrun n, hsend]

def acknowledgingLine (n : ℕ) : SecsLine :=
  ⟨(List.replicate n [.byte EOT, .byte ACK]).flatten, none, [], []⟩

theorem acknowledges_acknowledgingLine (rbit : Bool) (n : ℕ) :
    Acknowledges rbit n (acknowledgingLine n) := by
  refine ⟨rfl, List.replicate n [.byte EOT, .byte ACK], [], ?_, List.length_replicate, ?_⟩
  · rw [List.append_nil]
    rfl
  · intro reads hreads
    rw [List.eq_of_mem_replicate hreads]
    exact .answer

/-- On such a line the block is sent, unless the number of attempts has wrapped to 0. -/
theorem sendBlock_acknowledgingLine (opts : SecsOptions) (block : Bytes) {n : ℕ} (hn : 0 < n) :
    ∃ line', sendBlock opts block opts.attempts (acknowledgingLine n) = (0, line') ∧
      line'.blocks = if opts.attempts = 0 then [] else [block] := by
  by_cases hattempts : opts.attempts = 0
  · refine ⟨acknowledgingLine n, ?_, ?_⟩
    · rw [sendBlock_eq, if_pos hattempts]
    · rw [if_pos hattempts]
      rfl
  · obtain ⟨m, rfl⟩ := Nat.exists_eq_succ_of_ne_zero hn.ne'
    obtain ⟨written', hrun⟩ := sendBlock_handshake hattempts block (.answer) hattempts
      (List.replicate m [LineRead.byte EOT, .byte ACK]).flatten [] []
    have hline : acknowledgingLine (m + 1) =
        ⟨[.byte EOT, .byte ACK] ++ (List.replicate m [.byte EOT, .byte ACK]).flatten, none, [],
          []⟩ := by
      rw [acknowledgingLine, List.replicate_succ, List.flatten_cons]
    exact ⟨_, by rw [hline, hrun], by rw [if_neg hattempts]; rfl⟩

theorem splits_onlyBlock {encoded : EncodeResult σ}
    (hsplits : Splits [onlyBlock opts garbage systemBytes encoded] encoded.head
      systemBytes.toNat encoded.buffer) : encoded.buffer = [] ∧ encoded.head.Fits := by
  have hbody := hsplits.bodies
  have hfields := hsplits.fields 0 (by simp)
  rw [List.flatMap_singleton, onlyBlock, ← List.append_nil (blockHeader _ _ _ _ _),
    drop_blockHeader] at hbody
  refine ⟨hbody.symm, ?_⟩
  rw [List.getD_cons_zero, onlyBlock, ← List.append_nil (blockHeader _ _ _ _ _),
    blockFields_blockHeader] at hfields
  simp only [BlockFields.mk.injEq] at hfields
  obtain ⟨hdevice, -, hstream, hfunction, -⟩ := hfields
  refine ⟨?_, ?_, ?_⟩ <;> omega

end

/-- A message is sent right exactly when it is encoded to no bytes at all, its header fields have
room for its values, and the number of attempts has not wrapped to 0. -/
theorem sendSecsII_right_iff {σ : Type} (cmds : EncodeCommands σ) (scan : FloatScan)
    (fl : FloatText) (opts : SecsOptions) (garbage : ℕ) (systemBytes : UInt32) (p : Program σ)
    (encoded : EncodeResult σ) (hencoded : EncodesTo cmds scan fl p encoded) :
    SendsRight cmds scan fl opts garbage systemBytes p encoded ↔
      encoded.iret = 0 ∧ encoded.buffer = [] ∧ encoded.head.Fits ∧ opts.attempts ≠ 0 := by
  constructor
  · intro hright
    by_cases hiret : encoded.iret = 0
    · obtain ⟨r, blocks, hsends, hblocks, hsplits⟩ := hright.sent hiret _
        (acknowledges_acknowledgingLine opts.rbit _)
      obtain ⟨line', hrun, hline'⟩ := sendBlock_acknowledgingLine opts
        (onlyBlock opts garbage systemBytes encoded) (lt_max_of_lt_left one_pos)
      obtain ⟨iret, line₁, hsame, rfl⟩ := (sendsTo_iff hencoded _ r).1 hsends
      rw [hrun] at hsame
      cases hsame
      simp only [hline'] at hblocks
      by_cases hattempts : opts.attempts = 0
      · rw [if_pos hattempts] at hblocks
        have hnone : blocks = [] := (List.append_eq_nil_iff.1 hblocks.symm).2
        have hcount := hsplits.count
        rw [hnone, List.length_nil] at hcount
        omega
      · rw [if_neg hattempts] at hblocks
        have hone : blocks = [onlyBlock opts garbage systemBytes encoded] := hblocks.symm
        rw [hone] at hsplits
        obtain ⟨hbuffer, hhead⟩ := splits_onlyBlock hsplits
        exact ⟨hiret, hbuffer, hhead, hattempts⟩
    · -- the message could not be encoded, and still the block is sent and 0 returned
      obtain ⟨r, hsends, -, hreturn⟩ := hright.refused hiret (acknowledgingLine 1)
      obtain ⟨line', hrun, -⟩ := sendBlock_acknowledgingLine opts
        (onlyBlock opts garbage systemBytes encoded) one_pos
      obtain ⟨iret, line₁, hsame, rfl⟩ := (sendsTo_iff hencoded _ r).1 hsends
      rw [hrun] at hsame
      cases hsame
      exact (hreturn rfl).elim
  · rintro ⟨hiret, hbuffer, hhead, hattempts⟩
    refine ⟨fun hne => (hne hiret).elim, fun _ line hack => ?_⟩
    have hblocks : messageBlocks opts.rbit encoded.head systemBytes.toNat [] 1 =
        [onlyBlock opts garbage systemBytes encoded] := by
      rw [messageBlocks, onlyBlock, hiret]
      simp
    rw [hbuffer] at hack ⊢
    have hack' : Acknowledges opts.rbit
        (messageBlocks opts.rbit encoded.head systemBytes.toNat [] 1).length line := by
      rw [length_messageBlocks]
      exact hack
    obtain ⟨line', hrun, hline'⟩ := blockLoop_acknowledged hattempts encoded.head
      systemBytes.toNat [] 1 (by simp) line hack'
    rw [List.length_nil, blockLoop_zero] at hrun
    have honly : onlyBlock opts garbage systemBytes encoded =
        blockHeader opts.rbit encoded.head systemBytes.toNat 1 true := by
      rw [onlyBlock, hiret]
      rfl
    refine ⟨_, _, (sendsTo_iff hencoded line _).2 ⟨0, line', ?_, rfl⟩, hline',
      messageBlocks_splits _ _ _ hhead systemBytes.toNat_lt (by simp)⟩
    rw [honly, hrun]

/-! ## Two messages -/

/-- A message is encoded to what its main loop writes when the log has room. -/
theorem exists_encodesTo {f : Sml} {ts : List Token} (hr : Renders f ts)
    (hok : f.refused = false) (hroom : LogRoom f.stored) :
    ∃ encoded, EncodesTo noCommands noScan noFloats (s1f1 ts) encoded ∧ encoded.iret = 0 ∧
      encoded.buffer = f.stored := by
  obtain ⟨k, head', p', hitems⟩ :=
    encodeItems_presents noCommands noScan (presents_s1f1 hr) ⟨0, 0, 0, 0⟩
  rw [hok, Sml.written_of_not_refused hok] at hitems
  obtain ⟨k', encoded, hrun, hresult⟩ := (secsEncode_returns_iff noCommands noScan noFloats hitems
    fun iret b => iret = 0 ∧ b = f.stored).2 ⟨hroom, rfl, rfl⟩
  exact ⟨encoded, ⟨k', hrun⟩, hresult⟩

/-- A message with an item is sent as one block without a body. -/
theorem sendSecsII_not_always_right :
    ¬ ∀ {σ : Type} (cmds : EncodeCommands σ) (scan : FloatScan) (fl : FloatText)
      (opts : SecsOptions) (garbage : ℕ) (systemBytes : UInt32) (p : Program σ)
      (encoded : EncodeResult σ), EncodesTo cmds scan fl p encoded →
      SendsRight cmds scan fl opts garbage systemBytes p encoded := by
  intro hall
  obtain ⟨hfits, hrange⟩ := nested_fits 0
  obtain ⟨hok, hstored⟩ := Sml.stored_exact hfits hrange
  have hroom : LogRoom (nested 0).stored := by
    rw [hstored, Sml.logRoom_iff hfits]
    exact ⟨⟨Nat.zero_le _, trivial⟩, by decide⟩
  obtain ⟨encoded, hencoded, hiret, hbuffer⟩ :=
    exists_encodesTo (nested_renders 0) ((nested 0).refused_eq_false_iff.2 hok) hroom
  obtain ⟨r, blocks, hsends, hblocks, hsplits⟩ := (hall noCommands noScan noFloats ⟨false, 3⟩ 0 1
    _ encoded hencoded).sent hiret _ (acknowledges_acknowledgingLine false _)
  obtain ⟨line', hrun, hline'⟩ := sendBlock_acknowledgingLine ⟨false, 3⟩
    (onlyBlock ⟨false, 3⟩ 0 1 encoded) (lt_max_of_lt_left one_pos)
  obtain ⟨iret, line₁, hsame, rfl⟩ := (sendsTo_iff hencoded _ r).1 hsends
  rw [hrun] at hsame
  cases hsame
  simp only [hline'] at hblocks
  have hone : blocks = [onlyBlock ⟨false, 3⟩ 0 1 encoded] := hblocks.symm
  rw [hone] at hsplits
  have hempty := (splits_onlyBlock hsplits).1
  rw [hbuffer] at hempty
  exact absurd hempty (by decide)

theorem EncodesTo.head_eq {σ : Type} {cmds : EncodeCommands σ} {scan : FloatScan} {fl : FloatText}
    {p : Program σ} {encoded : EncodeResult σ} (h : EncodesTo cmds scan fl p encoded) :
    encoded.head = (encodeHead cmds ⟨0, 0, 0, 0⟩ p).2.1 := by
  obtain ⟨k, hk⟩ := h
  obtain ⟨⟨head', st⟩, hitems, hrun⟩ := Option.bind_eq_some_iff.1 (hk 0)
  obtain ⟨st', -, hst⟩ := Option.bind_eq_some_iff.1 hitems
  cases hst
  simp only [Option.pure_def, Option.some.injEq] at hrun
  split at hrun
  · cases hrun
  · obtain ⟨log, -, hresult⟩ := bind_ok_iff.1 hrun
    cases hresult
    rfl

/-- `S1F1 0` without items is sent right. -/
theorem sendSecsII_right_empty :
    ∃ encoded, EncodesTo noCommands noScan noFloats (s1f1 []) encoded ∧
      SendsRight noCommands noScan noFloats ⟨false, 3⟩ 0 1 (s1f1 []) encoded := by
  have hroom : LogRoom Sml.done.stored := by
    refine ⟨by decide, ?_⟩
    rw [Sml.stored, walk_nil]
    exact ⟨trivial, by decide⟩
  obtain ⟨encoded, hencoded, hiret, hbuffer⟩ := exists_encodesTo .done rfl hroom
  have hhead : encoded.head = ⟨1, 1, 0, 0⟩ := hencoded.head_eq
  refine ⟨encoded, hencoded, (sendSecsII_right_iff noCommands noScan noFloats ⟨false, 3⟩ 0 1
    (s1f1 []) encoded hencoded).2 ⟨hiret, hbuffer, ?_, by decide⟩⟩
  rw [hhead]
  exact ⟨by decide, by decide, by decide⟩

end ScOpen
