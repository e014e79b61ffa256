import ScOpen.Processes
import ScOpen.RecvSecsSession

/-!
# The SECS-I functions as processes

The functions that send and receive over a line, with the reads and writes in the order in which
they are made. On reads that are known in advance they do what the functions on a `SecsLine` do.
`n` bounds the turns of each loop. Writing does not fail here.
-/

namespace ScOpen

inductive LineRole where
  | handshake
  | block
  deriving DecidableEq

abbrev LineProcess := Process LineRole LineRead UInt8

structure SecsMessage where
  head : MessageHead
  systemBytes : ℕ
  encoded : Bytes

namespace OnLine

/-! ## Sending a block -/

def readc (role : LineRole) : LineProcess LineRead := .read role .done

def writec (role : LineRole) (c : UInt8) : LineProcess Unit := .write role c (.done ())

def writeBytes : Bytes → LineProcess Unit
  | [] => .done ()
  | c :: bytes => .write .block c (writeBytes bytes)

/-- The loop that waits for `EOT` while timer T2 runs. -/
def waitForEot (rbit : Bool) : ℕ → LineProcess EotWait
  | 0 => .spent
  | n + 1 => .read .handshake fun
      | .failed => .done .failed
      | .timeout => .done .failed
      | .byte c =>
          if c = EOT then .done .eot
          else if c = ENQ ∧ rbit = false then .done .contention
          else waitForEot rbit n

def sendFrame (block : Bytes) : LineProcess SendStatus := do
  writeBytes (blockFrame block)
  match ← readc .handshake with
  | .failed => pure .failed
  | .timeout => pure .failed
  | .byte c => pure (if c = ACK then .acknowledged else .protocolError)

def sendSecsI (n : ℕ) (rbit : Bool) (block : Bytes) : LineProcess SendStatus := do
  writec .handshake ENQ
  match ← waitForEot rbit n with
  | .failed => pure .failed
  | .contention => pure .contention
  | .eot => sendFrame block

/-! ## Receiving a message -/

def readBytes : ℕ → LineProcess (Option Bytes)
  | 0 => .done (some [])
  | n + 1 => .read .block fun
      | .failed => .done none
      | .timeout => .done none
      | .byte c => do
          let bytes ← readBytes n
          pure (bytes.map (c :: ·))

def readSize : ℕ → LineProcess (Option UInt8)
  | 0 => .spent
  | n + 1 => .read .block fun
      | .failed => .done none
      | .timeout => .done none
      | .byte c => if c = ENQ then readSize n else .done (some c)

def completion : ℕ → LineProcess Unit
  | 0 => .spent
  | n + 1 => .read .block fun
      | .byte _ => completion n
      | .timeout => .done ()
      | .failed => .done ()

def sendNak : LineProcess RecvStatus := do
  writec .handshake NAK
  pure .refused

def recvChecksum (n : ℕ) (block : Bytes) : LineProcess RecvStatus := do
  match ← readBytes 2 with
  | none => pure .failed
  | some cs =>
      if cs = secsCalcChecksum block then
        writec .handshake ACK
        pure (.received block)
      else
        completion n
        sendNak

def recvFrame (n : ℕ) : LineProcess RecvStatus := do
  match ← readSize n with
  | none => pure .failed
  | some size =>
      if size < 10 ∨ 254 < size then
        completion n
        sendNak
      else
        match ← readBytes size.toNat with
        | none => pure .failed
        | some block => recvChecksum n block

def recvEnquired (n : ℕ) : LineProcess RecvStatus := do
  writec .handshake EOT
  recvFrame n

def recvSecsI (n : ℕ) (flag : Bool) : LineProcess RecvStatus :=
  if flag then recvEnquired n
  else do
    match ← readc .handshake with
    | .failed => pure .failed
    | .timeout => pure .expired
    | .byte c => if c = ENQ then recvEnquired n else pure .refused

def recvLoop (n : ℕ) : ℕ → Bool → RecvState → LineProcess (ℕ × RecvState)
  | 0, _, _ => .spent
  | turns + 1, flag, st => do
      match ← recvSecsI n flag with
      | .failed => pure (1, st)
      | .refused => pure (2, st)
      | .expired => pure (1, st)
      | .received block =>
          if isLastBlock block then pure (0, st.add block)
          else recvLoop n turns false (st.add block)

/-- `recv_secs()` up to the decoding of the message. -/
def recvSecs (n : ℕ) (flag : Bool) : LineProcess (Option ReceivedMessage) := do
  let (iret, st) ← recvLoop n n flag .start
  pure (if iret = 0 then some ⟨st.header, st.body⟩ else none)

/-! ## Sending a message -/

/-- The loop over the attempts to send a block, with its return value and the messages that are
received in between: after a contention the other station's message comes first, and then the
attempts start again. -/
def sendBlock (n : ℕ) (opts : SecsOptions) (block : Bytes) :
    ℕ → ℕ → List ReceivedMessage → LineProcess (ℕ × List ReceivedMessage)
  | 0, _, _ => .spent
  | turns + 1, retry, received =>
      if retry = 0 then .done (0, received)
      else do
        match ← sendSecsI n opts.rbit block with
        | .failed => pure (3, received)
        | .contention =>
            let message ← recvSecs n true
            sendBlock n opts block turns opts.attempts (received ++ message.toList)
        | .protocolError =>
            if retry - 1 = 0 then pure (1, received)
            else sendBlock n opts block turns (retry - 1) received
        | .acknowledged => pure (0, received)

def blockLoop (n : ℕ) (opts : SecsOptions) (head : MessageHead) (systemBytes : ℕ)
    (msgPtr : Bytes) (msgSize blockNum : ℕ) (received : List ReceivedMessage) :
    LineProcess (ℕ × List ReceivedMessage) :=
  let dataSize := min 244 msgSize
  let left := msgSize - dataSize
  let block := blockHeader opts.rbit head systemBytes blockNum (left = 0) ++ msgPtr.take dataSize
  do
    let (iret, received) ← sendBlock n opts block n opts.attempts received
    if iret ≠ 0 then pure (iret, received)
    else if left ≠ 0 then
      blockLoop n opts head systemBytes (msgPtr.drop dataSize) left ((blockNum + 1) % 2 ^ 32)
        received
    else pure (iret, received)
termination_by msgSize
decreasing_by omega

/-- `send_secsII()` from the encoded message on, with `iret = 0; msg_size = 0;` in front of the
loop. -/
def sendSecsII (n : ℕ) (opts : SecsOptions) (m : SecsMessage) :
    LineProcess (ℕ × List ReceivedMessage) :=
  blockLoop n opts m.head m.systemBytes m.encoded 0 1 []

/-! ## The reads are known -/

theorem run_writeBytes (bytes : Bytes) (reads : List LineRead) :
    (writeBytes bytes).run .failed reads = some ((), reads, bytes) := by
  induction bytes with
  | nil => rfl
  | cons c bytes ih => simp only [writeBytes, Process.run, ih, Option.map_some]

theorem run_waitForEot (rbit : Bool) {n : ℕ} {reads : List LineRead} (hn : reads.length < n) :
    (waitForEot rbit n).run .failed reads =
      some ((ScOpen.waitForEot rbit reads).1, (ScOpen.waitForEot rbit reads).2, []) := by
  induction n generalizing reads with
  | zero => exact absurd hn (Nat.not_lt_zero _)
  | succ n ih =>
      cases reads with
      | nil => rfl
      | cons r reads =>
          cases r with
          | byte c =>
              have hrest := ih (Nat.lt_of_succ_lt_succ hn)
              simp only [waitForEot, Process.run, ScOpen.waitForEot]
              split_ifs
              · rfl
              · rfl
              · exact hrest
          | timeout => rfl
          | failed => rfl

theorem run_readBytes (n : ℕ) (reads : List LineRead) :
    (readBytes n).run .failed reads =
      some ((ScOpen.readBytes n reads).1, (ScOpen.readBytes n reads).2, []) := by
  induction n generalizing reads with
  | zero => rfl
  | succ n ih =>
      cases reads with
      | nil => rfl
      | cons r reads =>
          cases r with
          | byte c =>
              simp only [readBytes, Process.run, ScOpen.readBytes]
              rw [Process.run_bind_of_eq (ih reads)]
              rfl
          | timeout => rfl
          | failed => rfl

theorem run_readSize {n : ℕ} {reads : List LineRead} (hn : reads.length < n) :
    (readSize n).run .failed reads =
      some ((ScOpen.readSize reads).1, (ScOpen.readSize reads).2, []) := by
  induction n generalizing reads with
  | zero => exact absurd hn (Nat.not_lt_zero _)
  | succ n ih =>
      cases reads with
      | nil => rfl
      | cons r reads =>
          cases r with
          | byte c =>
              have hrest := ih (Nat.lt_of_succ_lt_succ hn)
              simp only [readSize, Process.run, ScOpen.readSize]
              split_ifs
              · exact hrest
              · rfl
          | timeout => rfl
          | failed => rfl

theorem run_completion {n : ℕ} {reads : List LineRead} (hn : reads.length < n) :
    (completion n).run .failed reads = some ((), ScOpen.completion reads, []) := by
  induction n generalizing reads with
  | zero => exact absurd hn (Nat.not_lt_zero _)
  | succ n ih =>
      cases reads with
      | nil => rfl
      | cons r reads =>
          cases r with
          | byte c => exact ih (Nat.lt_of_succ_lt_succ hn)
          | timeout => rfl
          | failed => rfl

def Performs {α : Type} (p : LineProcess α) (line : SecsLine) (r : α × SecsLine) : Prop :=
  ∃ out, p.run .failed line.reads = some (r.1, r.2.reads, out) ∧
    r.2.written = line.written ++ out ∧ r.2.room = none

section

variable {α γ : Type} {line : SecsLine}

theorem Performs.room {p : LineProcess α} {r : α × SecsLine} (h : Performs p line r) :
    r.2.room = none := by
  obtain ⟨out, -, -, hroom⟩ := h
  exact hroom

theorem performs_done {reads : List LineRead} {room : Option ℕ} {written : Bytes}
    {blocks : List Bytes} (hroom : room = none) (a : α) :
    Performs (.done a) ⟨reads, room, written, blocks⟩ (a, ⟨reads, room, written, blocks⟩) :=
  ⟨[], rfl, (List.append_nil _).symm, hroom⟩

theorem performs_readc (line : SecsLine) (hroom : line.room = none) (role : LineRole) :
    Performs (readc role) line line.readc := by
  obtain ⟨reads, room, written, blocks⟩ := line
  cases reads with
  | nil => exact ⟨[], rfl, (List.append_nil _).symm, hroom⟩
  | cons r reads => exact ⟨[], rfl, (List.append_nil _).symm, hroom⟩

theorem performs_write {role : LineRole} {c : UInt8} {next : LineProcess α} {r : α × SecsLine}
    (h : Performs next { line with written := line.written ++ [c] } r) :
    Performs (.write role c next) line r := by
  obtain ⟨out, hrun, hwritten, hroom⟩ := h
  refine ⟨c :: out, ?_, ?_, hroom⟩
  · simp only [Process.run, hrun, Option.map_some]
  · rw [hwritten, List.append_assoc, List.singleton_append]

theorem performs_bind {p : LineProcess α} {next : α → LineProcess γ} {a : α} {line' : SecsLine}
    {r : γ × SecsLine} (h : Performs p line (a, line')) (hnext : Performs (next a) line' r) :
    Performs (p >>= next) line r := by
  obtain ⟨out, hrun, hwritten, -⟩ := h
  obtain ⟨out', hrun', hwritten', hroom⟩ := hnext
  refine ⟨out ++ out', ?_, ?_, hroom⟩
  · rw [Process.run_bind_of_eq hrun, hrun']
    rfl
  · rw [hwritten', hwritten, List.append_assoc]

/-- What only reads leaves the rest of the line as it was. -/
theorem performs_reads (line : SecsLine) {p : LineProcess α} {a : α} {rest : List LineRead}
    (hroom : line.room = none) (h : p.run .failed line.reads = some (a, rest, [])) :
    Performs p line (a, { line with reads := rest }) :=
  ⟨[], h, (List.append_nil _).symm, hroom⟩

end

theorem performs_sendFrame (block : Bytes) (line : SecsLine) (hroom : line.room = none) :
    Performs (sendFrame block) line (ScOpen.sendFrame block line) := by
  have hwrite : Performs (writeBytes (blockFrame block)) line ((), { line with
      written := line.written ++ blockFrame block, blocks := line.blocks ++ [block] }) :=
    ⟨_, run_writeBytes _ _, rfl, hroom⟩
  have hread := performs_readc { line with
    written := line.written ++ blockFrame block, blocks := line.blocks ++ [block] } hroom .handshake
  unfold sendFrame ScOpen.sendFrame
  rw [SecsLine.writeBytes_of_room hroom]
  apply performs_bind hwrite
  simp only
  generalize SecsLine.readc _ = answer at hread ⊢
  obtain ⟨r, line'⟩ := answer
  apply performs_bind hread
  cases r with
  | byte c => exact performs_done hread.room _
  | timeout => exact performs_done hread.room _
  | failed => exact performs_done hread.room _

/-- A block is sent as on a line whose reads are known. -/
theorem performs_sendSecsI (rbit : Bool) (block : Bytes) {n : ℕ} (line : SecsLine)
    (hroom : line.room = none) (hn : line.reads.length < n) :
    Performs (sendSecsI n rbit block) line (ScOpen.sendSecsI rbit block line) := by
  have hwait := performs_reads { line with written := line.written ++ [ENQ] } hroom
    (run_waitForEot rbit hn)
  unfold sendSecsI ScOpen.sendSecsI
  rw [SecsLine.writec_of_room hroom]
  apply performs_write
  apply performs_bind hwait
  simp only
  obtain ⟨wait, reads⟩ := ScOpen.waitForEot rbit line.reads
  cases wait with
  | eot => exact performs_sendFrame block _ hroom
  | contention => exact performs_done hroom _
  | failed => exact performs_done hroom _

theorem performs_sendNak (line : SecsLine) (hroom : line.room = none) :
    Performs sendNak line (ScOpen.sendNak line) := by
  unfold ScOpen.sendNak
  rw [SecsLine.writec_of_room hroom]
  apply performs_write
  exact performs_done hroom _

theorem performs_recvChecksum (block : Bytes) {n : ℕ} (line : SecsLine)
    (hroom : line.room = none) (hn : line.reads.length < n) :
    Performs (recvChecksum n block) line (ScOpen.recvChecksum block line) := by
  have hread := performs_reads line hroom (run_readBytes 2 line.reads)
  have hshrink := readBytes_shrinks 2 line.reads
  unfold recvChecksum ScOpen.recvChecksum
  apply performs_bind hread
  generalize ScOpen.readBytes 2 line.reads = r at hshrink ⊢
  obtain ⟨cs, reads⟩ := r
  have hdrop := performs_reads { line with reads := reads } hroom
    (run_completion (hshrink.trans_lt hn))
  cases cs with
  | some cs =>
      simp only
      split_ifs
      · have hwrite : ({ line with reads := reads } : SecsLine).room = none := hroom
        rw [SecsLine.writec_of_room hwrite]
        apply performs_write
        exact performs_done hroom _
      · apply performs_bind hdrop
        exact performs_sendNak _ hroom
  | none => exact performs_done hroom _

theorem performs_recvFrame {n : ℕ} (line : SecsLine) (hroom : line.room = none)
    (hn : line.reads.length < n) : Performs (recvFrame n) line (ScOpen.recvFrame line) := by
  have hsize := performs_reads line hroom (run_readSize hn)
  have hshrink : ∀ size reads, ScOpen.readSize line.reads = (some size, reads) →
      reads.length < n := fun size reads h => (readSize_shrinks h).trans hn
  unfold recvFrame ScOpen.recvFrame
  apply performs_bind hsize
  generalize ScOpen.readSize line.reads = r at hshrink ⊢
  obtain ⟨size, reads⟩ := r
  cases size with
  | some size =>
      have hreads := hshrink size reads rfl
      simp only
      split_ifs
      · apply performs_bind (performs_reads { line with reads := reads } hroom
          (run_completion hreads))
        exact performs_sendNak _ hroom
      · have hblock := performs_reads { line with reads := reads } hroom
          (run_readBytes size.toNat reads)
        have hless := (readBytes_shrinks size.toNat reads).trans_lt hreads
        apply performs_bind hblock
        generalize ScOpen.readBytes size.toNat reads = r at hless ⊢
        obtain ⟨block, rest⟩ := r
        cases block with
        | some block => exact performs_recvChecksum block _ hroom hless
        | none => exact performs_done hroom _
  | none => exact performs_done hroom _

theorem performs_recvEnquired {n : ℕ} (line : SecsLine) (hroom : line.room = none)
    (hn : line.reads.length < n) : Performs (recvEnquired n) line (ScOpen.recvEnquired line) := by
  unfold ScOpen.recvEnquired
  rw [SecsLine.writec_of_room hroom]
  apply performs_write
  exact performs_recvFrame _ hroom hn

theorem performs_recvSecsI (flag : Bool) {n : ℕ} (line : SecsLine) (hroom : line.room = none)
    (hn : line.reads.length < n) :
    Performs (recvSecsI n flag) line (ScOpen.recvSecsI flag line) := by
  have hread := performs_readc line hroom .handshake
  have hshrink := line.readc_shrinks
  unfold recvSecsI ScOpen.recvSecsI
  split_ifs
  · exact performs_recvEnquired line hroom hn
  · generalize line.readc = answer at hread hshrink ⊢
    obtain ⟨r, line'⟩ := answer
    apply performs_bind hread
    cases r with
    | byte c =>
        simp only
        split_ifs
        · exact performs_recvEnquired line' hread.room (hshrink.trans_lt hn)
        · exact performs_done hread.room _
    | timeout => exact performs_done hread.room _
    | failed => exact performs_done hread.room _

theorem performs_recvLoop {n : ℕ} (turns : ℕ) (flag : Bool) (st : RecvState) (line : SecsLine)
    (hroom : line.room = none) (hn : line.reads.length < n) (hturns : line.reads.length < turns) :
    Performs (recvLoop n turns flag st) line
      (((ScOpen.recvLoop flag st line).1, (ScOpen.recvLoop flag st line).2.1),
        (ScOpen.recvLoop flag st line).2.2) := by
  induction turns generalizing flag st line with
  | zero => exact absurd hturns (Nat.not_lt_zero _)
  | succ turns ih =>
      have hblock := performs_recvSecsI flag line hroom hn
      have hshrink := fun block line' => @recvSecsI_shrinks flag block line line'
      unfold recvLoop
      rw [recvLoop_eq]
      generalize ScOpen.recvSecsI flag line = r at hblock hshrink ⊢
      obtain ⟨status, line'⟩ := r
      apply performs_bind hblock
      cases status with
      | received block =>
          have hless := hshrink block line' rfl
          simp only
          split_ifs
          · exact performs_done hblock.room _
          · exact ih _ _ line' hblock.room (hless.trans hn) (by omega)
      | failed => exact performs_done hblock.room _
      | refused => exact performs_done hblock.room _
      | expired => exact performs_done hblock.room _

/-- A message is received as on a line whose reads are known. -/
theorem performs_recvSecs (flag : Bool) {n : ℕ} (line : SecsLine) (hroom : line.room = none)
    (hn : line.reads.length < n) :
    Performs (recvSecs n flag) line (ScOpen.recvSecs flag line) := by
  have hloop := performs_recvLoop n flag .start line hroom hn hn
  unfold recvSecs ScOpen.recvSecs
  apply performs_bind hloop
  exact performs_done hloop.room _

/-- The attempts to send a block are those on a line whose reads are known, as long as the other
station is not let first. -/
theorem performs_sendBlock {n : ℕ} {opts : SecsOptions} (hrbit : opts.rbit = true)
    (block : Bytes) (turns retry : ℕ) (received : List ReceivedMessage) (line : SecsLine)
    (hroom : line.room = none) (hn : line.reads.length < n) (hturns : retry < turns) :
    Performs (sendBlock n opts block turns retry received) line
      (((ScOpen.sendBlock opts block retry line).1, received),
        (ScOpen.sendBlock opts block retry line).2) := by
  induction turns generalizing retry line with
  | zero => exact absurd hturns (Nat.not_lt_zero _)
  | succ turns ih =>
      have hblock := performs_sendSecsI opts.rbit block line hroom hn
      have hshrink := fun status line' => @sendSecsI_shrinks opts.rbit block line line' status
      have hfirst := fun status line' => @sendSecsI_rbit block line line' status
      rw [← hrbit] at hfirst
      unfold sendBlock
      rw [sendBlock_eq]
      by_cases hretry : retry = 0
      · rw [if_pos hretry, if_pos hretry]
        exact performs_done hroom _
      rw [if_neg hretry, if_neg hretry]
      generalize ScOpen.sendSecsI opts.rbit block line = r at hblock hshrink hfirst ⊢
      obtain ⟨status, line'⟩ := r
      have hless := (hshrink status line' rfl).1
      apply performs_bind hblock
      cases status with
      | acknowledged => exact performs_done hblock.room _
      | protocolError =>
          simp only
          split_ifs
          · exact performs_done hblock.room _
          · exact ih _ _ hblock.room (hless.trans_lt hn) (by omega)
      | contention => exact absurd rfl (hfirst _ line' rfl)
      | failed => exact performs_done hblock.room _

theorem performs_blockLoop {n : ℕ} {opts : SecsOptions} (hrbit : opts.rbit = true)
    (hattempts : opts.attempts < n) (head : MessageHead) (systemBytes : ℕ) (msgPtr : Bytes)
    (msgSize blockNum : ℕ) (received : List ReceivedMessage) (line : SecsLine)
    (hroom : line.room = none) (hn : line.reads.length < n) :
    Performs (blockLoop n opts head systemBytes msgPtr msgSize blockNum received) line
      (((ScOpen.blockLoop opts head systemBytes msgPtr msgSize blockNum line).1, received),
        (ScOpen.blockLoop opts head systemBytes msgPtr msgSize blockNum line).2) := by
  fun_induction ScOpen.blockLoop opts head systemBytes msgPtr msgSize blockNum line with
  | case1 msgPtr msgSize blockNum line dataSize left block r hfailed =>
      have hblock := performs_sendBlock hrbit block n opts.attempts received line hroom hn hattempts
      rw [blockLoop]
      apply performs_bind hblock
      simp only
      rw [if_pos hfailed]
      exact performs_done hblock.room _
  | case2 msgPtr msgSize blockNum line dataSize left block r hsent hleft ih =>
      have hblock := performs_sendBlock hrbit block n opts.attempts received line hroom hn hattempts
      have hshrink := sendBlock_shrinks opts block opts.attempts line
      rw [blockLoop]
      apply performs_bind hblock
      simp only
      rw [if_neg hsent, if_pos hleft]
      exact ih hblock.room (hshrink.trans_lt hn)
  | case3 msgPtr msgSize blockNum line dataSize left block r hsent hleft =>
      have hblock := performs_sendBlock hrbit block n opts.attempts received line hroom hn hattempts
      rw [blockLoop]
      apply performs_bind hblock
      simp only
      rw [if_neg hsent, if_neg hleft]
      exact performs_done hblock.room _

/-- With the R-bit a station sends a message as on a line whose reads are known. -/
theorem performs_sendSecsII {σ : Type} (cmds : EncodeCommands σ) (scan : FloatScan)
    (fl : FloatText) {fuel n : ℕ} {opts : SecsOptions} (garbage systemBytes : ℕ) {p : Program σ}
    (line : SecsLine) {encoded : EncodeResult σ} {r : SendResult σ}
    (hencoded : secsEncode cmds scan fl fuel ⟨0, 0, 0, 0⟩ [] p = some (.ok encoded))
    (hok : encoded.iret = 0)
    (hsent : ScOpen.sendSecsII cmds scan fl fuel opts garbage systemBytes p line = some (.ok r))
    (hrbit : opts.rbit = true) (hattempts : opts.attempts < n) (hroom : line.room = none)
    (hn : line.reads.length < n) :
    Performs (sendSecsII n opts ⟨encoded.head, systemBytes, encoded.buffer⟩) line
      ((r.iret, []), r.line) := by
  have hloop := performs_blockLoop hrbit hattempts encoded.head systemBytes encoded.buffer 0 1 []
    line hroom hn
  simp only [ScOpen.sendSecsII, hencoded] at hsent
  cases hsent
  simp only [hok, ne_eq, not_true_eq_false, if_false]
  exact hloop

end OnLine

end ScOpen
