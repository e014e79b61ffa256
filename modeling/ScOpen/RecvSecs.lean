import ScOpen.SecsLine

/-!
# Receiving a SECS-I message

`recv_secsI()` receives one block: it answers `ENQ` with `EOT`, reads the block and answers with
`ACK`, or with `NAK` when the block does not arrive as it should. `recv_secs()` collects the blocks
of a message up to the one that is marked as the last. It leaves out a block whose header is the one
it saved last.
-/

namespace ScOpen

/-! ## One block -/

/-- The return values 0, 1 and 2 of `recv_secsI()`, and the case that timer T4 expires while it
waits for `ENQ`, which ends the call from outside. -/
inductive RecvStatus where
  | received (block : Bytes)
  | failed
  | refused
  | expired

/-- The loop that reads `n` characters while timer T1 runs; none when a read returns 1. -/
def readBytes : ℕ → List LineRead → Option Bytes × List LineRead
  | 0, reads => (some [], reads)
  | _ + 1, [] => (none, [])
  | _ + 1, .failed :: reads => (none, reads)
  | _ + 1, .timeout :: reads => (none, reads)
  | n + 1, .byte c :: reads => ((readBytes n reads).1.map (c :: ·), (readBytes n reads).2)

/-- The loop that waits for the size while timer T2 runs; every further `ENQ` is ignored. -/
def readSize : List LineRead → Option UInt8 × List LineRead
  | [] => (none, [])
  | .failed :: reads => (none, reads)
  | .timeout :: reads => (none, reads)
  | .byte c :: reads => if c = ENQ then readSize reads else (some c, reads)

/-- `completion()`: characters are dropped until timer T1 expires. -/
def completion : List LineRead → List LineRead
  | [] => []
  | .byte _ :: reads => completion reads
  | .timeout :: reads => reads
  | .failed :: reads => reads

def sendNak (line : SecsLine) : RecvStatus × SecsLine :=
  match line.writec NAK with
  | none => (.failed, line)
  | some line => (.refused, line)

def recvChecksum (block : Bytes) (line : SecsLine) : RecvStatus × SecsLine :=
  match readBytes 2 line.reads with
  | (none, reads) => (.failed, { line with reads := reads })
  | (some cs, reads) =>
      if cs = secsCalcChecksum block then
        match ({ line with reads := reads } : SecsLine).writec ACK with
        | none => (.failed, { line with reads := reads })
        | some line => (.received block, line)
      else sendNak { line with reads := completion reads }

def recvFrame (line : SecsLine) : RecvStatus × SecsLine :=
  match readSize line.reads with
  | (none, reads) => (.failed, { line with reads := reads })
  | (some size, reads) =>
      if size < 10 ∨ 254 < size then sendNak { line with reads := completion reads }
      else
        match readBytes size.toNat reads with
        | (none, reads) => (.failed, { line with reads := reads })
        | (some block, reads) => recvChecksum block { line with reads := reads }

/-- `recv_secsI()` once `ENQ` has been received. -/
def recvEnquired (line : SecsLine) : RecvStatus × SecsLine :=
  match line.writec EOT with
  | none => (.failed, line)
  | some line => recvFrame line

/-- `recv_secsI()`; with `flag`, `ENQ` has already been received. -/
def recvSecsI (flag : Bool) (line : SecsLine) : RecvStatus × SecsLine :=
  if flag then recvEnquired line
  else
    match line.readc with
    | (.failed, line) => (.failed, line)
    | (.timeout, line) => (.expired, line)
    | (.byte c, line) => if c = ENQ then recvEnquired line else (.refused, line)

/-! ## Reads are used up -/

theorem readBytes_shrinks (n : ℕ) (reads : List LineRead) :
    (readBytes n reads).2.length ≤ reads.length := by
  induction n generalizing reads with
  | zero => exact le_rfl
  | succ n ih =>
      cases reads with
      | nil => exact le_rfl
      | cons r reads =>
          have hrest := ih reads
          cases r with
          | byte c => exact hrest.trans (Nat.le_succ _)
          | timeout => exact Nat.le_succ _
          | failed => exact Nat.le_succ _

theorem readSize_shrinks {reads rest : List LineRead} {size : UInt8}
    (h : readSize reads = (some size, rest)) : rest.length < reads.length := by
  induction reads with
  | nil => cases h
  | cons r reads ih =>
      cases r with
      | byte c =>
          simp only [readSize] at h
          split at h
          · exact (ih h).trans (Nat.lt_succ_self _)
          · cases h
            exact Nat.lt_succ_self _
      | timeout => cases h
      | failed => cases h

theorem sendNak_ne_received (line : SecsLine) (block : Bytes) (line' : SecsLine) :
    sendNak line ≠ (.received block, line') := by
  unfold sendNak
  split <;> simp

theorem recvChecksum_shrinks {block block' : Bytes} {line line' : SecsLine}
    (h : recvChecksum block line = (.received block', line')) :
    line'.reads.length ≤ line.reads.length := by
  have hshrink := readBytes_shrinks 2 line.reads
  unfold recvChecksum at h
  split at h
  · cases h
  · rename_i cs reads heq
    rw [heq] at hshrink
    split at h
    · split at h
      · cases h
      · rename_i line₁ hwrite
        cases h
        rw [(SecsLine.writec_reads hwrite).1]
        exact hshrink
    · exact (sendNak_ne_received _ _ _ h).elim

theorem recvFrame_shrinks {block : Bytes} {line line' : SecsLine}
    (h : recvFrame line = (.received block, line')) : line'.reads.length < line.reads.length := by
  unfold recvFrame at h
  split at h
  · cases h
  · rename_i size reads heq
    have hsize := readSize_shrinks heq
    split at h
    · exact (sendNak_ne_received _ _ _ h).elim
    · have hblock := readBytes_shrinks size.toNat reads
      split at h
      · cases h
      · rename_i bytes reads' heq'
        rw [heq'] at hblock
        exact ((recvChecksum_shrinks h).trans hblock).trans_lt hsize

/-- A block that is received takes characters off the line. -/
theorem recvSecsI_shrinks {flag : Bool} {block : Bytes} {line line' : SecsLine}
    (h : recvSecsI flag line = (.received block, line')) :
    line'.reads.length < line.reads.length := by
  have henquired : ∀ line : SecsLine, recvEnquired line = (.received block, line') →
      line'.reads.length < line.reads.length := by
    intro line h
    unfold recvEnquired at h
    split at h
    · cases h
    · rename_i line₁ hwrite
      rw [← (SecsLine.writec_reads hwrite).1]
      exact recvFrame_shrinks h
  unfold recvSecsI at h
  split at h
  · exact henquired line h
  · have hread := line.readc_shrinks
    split at h
    · cases h
    · cases h
    · rename_i c line₁ heq
      rw [heq] at hread
      split at h
      · exact (henquired line₁ h).trans_le hread
      · cases h

/-! ## The blocks of a message -/

structure RecvState where
  first : Bool
  header : Bytes
  lastHeader : Bytes
  body : Bytes

def RecvState.start : RecvState := ⟨true, List.replicate 10 0, List.replicate 10 0, []⟩

/-- What the loop does with a block; the first header is not saved for the comparison. -/
def RecvState.add (st : RecvState) (block : Bytes) : RecvState :=
  if st.first then
    { st with first := false, header := block.take 10, body := st.body ++ block.drop 10 }
  else if st.lastHeader = block.take 10 then st
  else { st with lastHeader := block.take 10, body := st.body ++ block.drop 10 }

def isLastBlock (block : Bytes) : Bool := (block.getD 4 0).toNat &&& 0x80 ≠ 0

def recvLoop (flag : Bool) (st : RecvState) (line : SecsLine) : ℕ × RecvState × SecsLine :=
  match _h : recvSecsI flag line with
  | (.failed, line') => (1, st, line')
  | (.refused, line') => (2, st, line')
  | (.expired, line') => (1, st, line')
  | (.received block, line') =>
      if isLastBlock block then (0, st.add block, line')
      else recvLoop false (st.add block) line'
termination_by line.reads.length
decreasing_by exact recvSecsI_shrinks _h

structure ReceivedMessage where
  header : Bytes
  body : Bytes
  deriving DecidableEq

/-- `recv_secs()` up to the decoding of the message. -/
def recvSecs (flag : Bool) (line : SecsLine) : Option ReceivedMessage × SecsLine :=
  let (iret, st, line) := recvLoop flag .start line
  (if iret = 0 then some ⟨st.header, st.body⟩ else none, line)

end ScOpen
