import ScOpen.SecsLine
import ScOpen.MakeLog

/-!
# Sending a SECS-I message

`send_secsII()` encodes a message, cuts it into blocks and sends each block with the handshake of
`send_secsI()`: `ENQ`, wait for `EOT`, the block, wait for `ACK`. A block that is not acknowledged
is sent again until the retries are used up. When both stations want to send, the one without the
R-bit lets the other go first and then starts again.
-/

namespace ScOpen

/-- The options of a connection; `retry` is the `uint32_t` that the option's number becomes. -/
structure SecsOptions where
  rbit : Bool
  retry : ℕ

inductive SendStatus where
  | acknowledged
  | protocolError
  | contention
  | failed
  deriving DecidableEq

inductive EotWait where
  | eot
  | contention
  | failed
  deriving DecidableEq

/-- The loop that waits for `EOT` while timer T2 runs. -/
def waitForEot (rbit : Bool) : List LineRead → EotWait × List LineRead
  | [] => (.failed, [])
  | .failed :: reads => (.failed, reads)
  | .timeout :: reads => (.failed, reads)
  | .byte c :: reads =>
      if c = EOT then (.eot, reads)
      else if c = ENQ ∧ rbit = false then (.contention, reads)
      else waitForEot rbit reads

/-- The block with its size in front and its checksum behind. -/
def blockFrame (block : Bytes) : Bytes :=
  UInt8.ofNat block.length :: (block ++ secsCalcChecksum block)

def sendFrame (block : Bytes) (line : SecsLine) : SendStatus × SecsLine :=
  match line.writeBytes (blockFrame block) with
  | none => (.failed, line)
  | some line =>
      match ({ line with blocks := line.blocks ++ [block] } : SecsLine).readc with
      | (.failed, line) => (.failed, line)
      | (.timeout, line) => (.failed, line)
      | (.byte c, line) => (if c = ACK then .acknowledged else .protocolError, line)

def sendSecsI (rbit : Bool) (block : Bytes) (line : SecsLine) : SendStatus × SecsLine :=
  match line.writec ENQ with
  | none => (.failed, line)
  | some line =>
      match waitForEot rbit line.reads with
      | (.failed, reads) => (.failed, { line with reads := reads })
      | (.contention, reads) => (.contention, { line with reads := reads })
      | (.eot, reads) => sendFrame block { line with reads := reads }

/-! ## Sending a block again

Every contention takes a character off the line, so the loop over the retries ends. -/

theorem waitForEot_shrinks (rbit : Bool) (reads : List LineRead) :
    (waitForEot rbit reads).2.length ≤ reads.length := by
  induction reads with
  | nil => exact le_rfl
  | cons r reads ih =>
      cases r with
      | byte c =>
          simp only [waitForEot]
          split
          · exact Nat.le_succ _
          · split
            · exact Nat.le_succ _
            · exact ih.trans (Nat.le_succ _)
      | timeout => exact Nat.le_succ _
      | failed => exact Nat.le_succ _

theorem waitForEot_contention {rbit : Bool} {reads rest : List LineRead}
    (h : waitForEot rbit reads = (.contention, rest)) : rest.length < reads.length := by
  induction reads with
  | nil => cases h
  | cons r reads ih =>
      cases r with
      | byte c =>
          simp only [waitForEot] at h
          split at h
          · cases h
          · split at h
            · cases h
              exact Nat.lt_succ_self _
            · exact (ih h).trans (Nat.lt_succ_self _)
      | timeout => cases h
      | failed => cases h

theorem sendFrame_shrinks {block : Bytes} {line line' : SecsLine} {status : SendStatus}
    (h : sendFrame block line = (status, line')) :
    line'.reads.length ≤ line.reads.length ∧ status ≠ .contention := by
  unfold sendFrame at h
  split at h
  · cases h
    exact ⟨le_rfl, by decide⟩
  · rename_i line₁ hwrite
    have hreads := (SecsLine.writeBytes_reads hwrite).1
    have hshrink := ({ line₁ with blocks := line₁.blocks ++ [block] } : SecsLine).readc_shrinks
    split at h <;> rename_i hread <;> cases h <;> rw [hread] at hshrink <;>
      refine ⟨by simpa [hreads] using hshrink, ?_⟩
    · decide
    · decide
    · split <;> decide

theorem sendSecsI_shrinks {rbit : Bool} {block : Bytes} {line line' : SecsLine}
    {status : SendStatus} (h : sendSecsI rbit block line = (status, line')) :
    line'.reads.length ≤ line.reads.length ∧
      (status = .contention → line'.reads.length < line.reads.length) := by
  unfold sendSecsI at h
  split at h
  · cases h
    exact ⟨le_rfl, by simp⟩
  · rename_i line₁ hwrite
    have hreads := (SecsLine.writec_reads hwrite).1
    have hshrink := waitForEot_shrinks rbit line₁.reads
    split at h <;> rename_i hwait <;> rw [hwait, hreads] at hshrink
    · cases h
      exact ⟨hshrink, by simp⟩
    · cases h
      rw [hreads] at hwait
      exact ⟨hshrink, fun _ => waitForEot_contention hwait⟩
    · obtain ⟨hle, hne⟩ := sendFrame_shrinks h
      exact ⟨hle.trans hshrink, fun heq => (hne heq).elim⟩

/-- With the R-bit no station is let go first. -/
theorem waitForEot_rbit (reads : List LineRead) : (waitForEot true reads).1 ≠ .contention := by
  induction reads with
  | nil => exact fun h => by cases h
  | cons r reads ih =>
      cases r with
      | byte c =>
          simp only [waitForEot, Bool.true_eq_false, and_false, if_false]
          split_ifs
          · exact fun h => by cases h
          · exact ih
      | timeout => exact fun h => by cases h
      | failed => exact fun h => by cases h

theorem sendSecsI_rbit {block : Bytes} {line line' : SecsLine} {status : SendStatus}
    (h : sendSecsI true block line = (status, line')) : status ≠ .contention := by
  unfold sendSecsI at h
  split at h
  · cases h
    exact fun heq => by cases heq
  · rename_i line₁ _
    have hwait := waitForEot_rbit line₁.reads
    split at h <;> rename_i hreads
    · cases h
      exact fun heq => by cases heq
    · exact absurd (by rw [hreads]) hwait
    · exact (sendFrame_shrinks h).2

/-- `retry + 1` on `uint32_t`. -/
def SecsOptions.attempts (opts : SecsOptions) : ℕ := (opts.retry + 1) % 2 ^ 32

/-- The loop over the attempts to send a block, with its return value. After a contention the
other station's message is received and acted on, and then the attempts start again. -/
def sendBlock (opts : SecsOptions) (block : Bytes) (retry : ℕ) (line : SecsLine) : ℕ × SecsLine :=
  if retry = 0 then (0, line)
  else
    match _h : sendSecsI opts.rbit block line with
    | (.failed, line') => (3, line')
    | (.contention, line') => sendBlock opts block opts.attempts line'
    | (.protocolError, line') =>
        if retry - 1 = 0 then (1, line') else sendBlock opts block (retry - 1) line'
    | (.acknowledged, line') => (0, line')
termination_by (line.reads.length, retry)
decreasing_by
  · exact Prod.Lex.left _ _ ((sendSecsI_shrinks _h).2 rfl)
  · rcases Nat.lt_or_eq_of_le (sendSecsI_shrinks _h).1 with hlt | heq
    · exact Prod.Lex.left _ _ hlt
    · rw [heq]
      exact Prod.Lex.right _ (by omega)

theorem sendBlock_eq (opts : SecsOptions) (block : Bytes) (retry : ℕ) (line : SecsLine) :
    sendBlock opts block retry line =
      if retry = 0 then (0, line)
      else
        match sendSecsI opts.rbit block line with
        | (.failed, line') => (3, line')
        | (.contention, line') => sendBlock opts block opts.attempts line'
        | (.protocolError, line') =>
            if retry - 1 = 0 then (1, line') else sendBlock opts block (retry - 1) line'
        | (.acknowledged, line') => (0, line') := by
  rw [sendBlock]
  split
  · rfl
  · split <;> rename_i heq <;> simp only [heq]

theorem sendBlock_shrinks (opts : SecsOptions) (block : Bytes) (retry : ℕ) (line : SecsLine) :
    (sendBlock opts block retry line).2.reads.length ≤ line.reads.length := by
  fun_induction sendBlock opts block retry line with
  | case1 => exact le_rfl
  | case2 _ _ _ _ h => exact (sendSecsI_shrinks h).1
  | case3 _ _ _ _ h ih => exact ih.trans (sendSecsI_shrinks h).1
  | case4 _ _ _ _ h => exact (sendSecsI_shrinks h).1
  | case5 _ _ _ _ h _ ih => exact ih.trans (sendSecsI_shrinks h).1
  | case6 _ _ _ _ h => exact (sendSecsI_shrinks h).1

/-! ## The blocks of a message -/

def setFlag (b : UInt8) (flag : Bool) : UInt8 := if flag then b ||| 0x80 else b

def blockHeader (rbit : Bool) (head : MessageHead) (systemBytes : ℕ) (blockNum : ℕ) (last : Bool) :
    Bytes :=
  [setFlag (UInt8.ofNat ((head.deviceId >>> 8) &&& 255)) rbit,
    UInt8.ofNat (head.deviceId &&& 255),
    setFlag (UInt8.ofNat head.stream) (head.waitBit ≠ 0),
    UInt8.ofNat head.function,
    setFlag (UInt8.ofNat ((blockNum >>> 8) &&& 255)) last,
    UInt8.ofNat (blockNum &&& 255),
    UInt8.ofNat ((systemBytes >>> 24) &&& 0xFF),
    UInt8.ofNat ((systemBytes >>> 16) &&& 0xFF),
    UInt8.ofNat ((systemBytes >>> 8) &&& 0xFF),
    UInt8.ofNat (systemBytes &&& 0xFF)]

/-- The loop over the blocks; `msgPtr` is what is left of the message and `msgSize` how much of it
is still to be sent. -/
def blockLoop (opts : SecsOptions) (head : MessageHead) (systemBytes : ℕ) (msgPtr : Bytes)
    (msgSize blockNum : ℕ) (line : SecsLine) : ℕ × SecsLine :=
  let dataSize := min 244 msgSize
  let left := msgSize - dataSize
  let block := blockHeader opts.rbit head systemBytes blockNum (left = 0) ++ msgPtr.take dataSize
  let r := sendBlock opts block opts.attempts line
  if r.1 ≠ 0 then r
  else if left ≠ 0 then
    blockLoop opts head systemBytes (msgPtr.drop dataSize) left ((blockNum + 1) % 2 ^ 32) r.2
  else r
termination_by msgSize
decreasing_by omega

/-- What is left when a message has been sent; `waitFlag` is only set without an error. -/
structure SendResult (σ : Type) where
  iret : ℕ
  line : SecsLine
  program : Program σ
  waitFlag : Option Bool

/-- `send_secsII()`. When the message cannot be encoded, `block_num` still holds what was on the
stack (`garbage`). -/
def sendSecsII {σ : Type} (cmds : EncodeCommands σ) (scan : FloatScan) (fl : FloatText)
    (fuel : ℕ) (opts : SecsOptions) (garbage : ℕ) (systemBytes : ℕ) (p : Program σ)
    (line : SecsLine) : Option (Except Fault (SendResult σ)) := do
  let r ← secsEncode cmds scan fl fuel ⟨0, 0, 0, 0⟩ [] p
  return do
    let encoded ← r
    let msgPtr := if encoded.iret ≠ 0 then [] else encoded.buffer
    let blockNum := if encoded.iret ≠ 0 then garbage else 1
    -- `iret = 0; msg_size = 0;` in front of the loop
    let (iret, line) := blockLoop opts encoded.head systemBytes msgPtr 0 blockNum line
    return {
      iret := iret
      line := line
      program := encoded.program
      waitFlag := if iret ≠ 0 then none else some (encoded.head.waitBit ≠ 0) }

end ScOpen
