import ScOpen.OnLine

/-!
# Two SECS-I stations

Two stations share a line. Each may start to send its next message whenever it does nothing else,
and it starts to receive when something has arrived. A message goes over the line as one block, its
header, because nothing is left of the message's size when the loop over the blocks begins.
-/

namespace ScOpen

open Dialogues Settling

abbrev LineByte := LineRole × UInt8

/-! ## Stations -/

/-- What a job comes to: the return values of `send_secsII()` and the received messages. -/
abbrev JobResult := List ℕ × List ReceivedMessage

/-- One station. `unsent` are the messages it has yet to start to send, and `mixed` tells that a
byte was taken for something else than it was sent for. -/
structure LineStation where
  opts : SecsOptions
  unsent : List SecsMessage
  job : Option (LineProcess JobResult)
  received : List ReceivedMessage
  results : List ℕ
  mixed : Bool

def sendJob (n : ℕ) (opts : SecsOptions) (m : SecsMessage) : LineProcess JobResult := do
  let (iret, received) ← OnLine.sendSecsII n opts m
  pure ([iret], received)

def recvJob (n : ℕ) : LineProcess JobResult := do
  let message ← OnLine.recvSecs n false
  pure ([], message.toList)

def LineStation.work (s : LineStation) (p : LineProcess JobResult) : LineStation :=
  { s with job := some p }

def LineStation.finish (s : LineStation) (result : JobResult) : LineStation :=
  { s with job := none, results := s.results ++ result.1, received := s.received ++ result.2 }

def LineStation.act (s : LineStation) : Action LineStation LineByte :=
  match s.job with
  | none => .rest
  | some (.done result) => .move (s.finish result)
  | some (.write role c next) => .write (role, c) (s.work next)
  | some (.read role next) => .read fun b => { s with
      job := some (next (.byte b.2))
      mixed := s.mixed || b.1 != role }
  | some .spent => .rest

/-- The program sends a message, or `select()` tells that the line can be read. -/
inductive LineStation.Chooses (n : ℕ) : List LineByte → LineStation → LineStation → Prop
  | send {q : List LineByte} {s : LineStation} {m : SecsMessage} {unsent : List SecsMessage}
      (hjob : s.job = none) (hunsent : s.unsent = m :: unsent) :
      Chooses n q s (({ s with unsent := unsent } : LineStation).work (sendJob n s.opts m))
  | receive {b : LineByte} {q : List LineByte} {s : LineStation} (hjob : s.job = none) :
      Chooses n (b :: q) s (s.work (recvJob n))

abbrev LineQuiet : Line LineStation LineByte → Line LineStation LineByte → Prop :=
  OfBoth (Acts LineStation.act)

abbrev LineChoice (n : ℕ) : Line LineStation LineByte → Line LineStation LineByte → Prop :=
  OfBoth (Dialogues.Chooses LineStation.act (LineStation.Chooses n))

abbrev LineStep (n : ℕ) : Line LineStation LineByte → Line LineStation LineByte → Prop :=
  Either LineQuiet (LineChoice n)

theorem LineStation.chooses_grows (n : ℕ) : Grows (LineStation.Chooses n) := by
  intro q put s s' h
  cases h with
  | send hjob hunsent => exact .send hjob hunsent
  | receive hjob => exact .receive hjob

theorem lineSteps_commute (n : ℕ) : Commutes LineQuiet (LineChoice n) :=
  commutes (LineStation.chooses_grows n)

/-- A byte is taken for what it was sent for. -/
theorem LineStation.takes (s : LineStation) (role : LineRole)
    (next : LineRead → LineProcess JobResult) (c : UInt8) :
    Does LineStation.act (s.work (.read role next)) [(role, c)] [] (s.work (next (.byte c))) := by
  have hread : LineStation.act (s.work (.read role next)) = .read fun b =>
      { s with job := some (next (.byte b.2)), mixed := s.mixed || b.1 != role } := rfl
  have hsame : ({ s with job := some (next (.byte c)), mixed := s.mixed || role != role } :
      LineStation) = s.work (next (.byte c)) := by simp [LineStation.work]
  exact hsame ▸ Does.read hread (role, c)

theorem LineStation.puts (s : LineStation) (role : LineRole) (c : UInt8)
    (next : LineProcess JobResult) :
    Does LineStation.act (s.work (.write role c next)) [] [(role, c)] (s.work next) :=
  .write rfl

/-- A station does what its job does. -/
theorem LineStation.follows {p p' : LineProcess JobResult} {events : List (Event LineByte)}
    (h : Process.Goes LineRead.byte p events p') (s : LineStation) :
    Follows LineStation.act (s.work p) events (s.work p') := by
  induction h with
  | refl p => exact .refl _
  | @write role c p p' events _ ih => exact .puts (s.puts role c p) ih
  | @read role c next p' events _ ih => exact .takes (s.takes role next c) ih

/-! ## One block on the line -/

def answered (block : Bytes) : List (Event LineByte) :=
  .takes (.handshake, EOT) :: ((blockFrame block).map fun c => .puts (.block, c)) ++
    [.takes (.handshake, ACK)]

def enquiry : Event LineByte := .puts (.handshake, ENQ)

def exchange (block : Bytes) : List (Event LineByte) := enquiry :: answered block

theorem writeBytes_goes (bytes : Bytes) :
    Process.Goes LineRead.byte (OnLine.writeBytes bytes) (bytes.map fun c => .puts (.block, c))
      (.done ()) := by
  induction bytes with
  | nil => exact .refl _
  | cons c bytes ih => exact .write ih

theorem sendFrame_goes (block : Bytes) :
    Process.Goes LineRead.byte (OnLine.sendFrame block)
      (((blockFrame block).map fun c => .puts (.block, c)) ++ [.takes (.handshake, ACK)])
      (.done .acknowledged) := by
  apply (writeBytes_goes (blockFrame block)).andThen
  exact .read (.refl _)

theorem readBytes_goes (bytes : Bytes) :
    Process.Goes LineRead.byte (OnLine.readBytes bytes.length)
      (bytes.map fun c => .takes (.block, c)) (.done (some bytes)) := by
  induction bytes with
  | nil => exact .refl _
  | cons c bytes ih =>
      apply Process.Goes.read
      rw [← List.append_nil (List.map _ bytes)]
      exact ih.andThen (.refl _)

theorem toNat_blockLength {block : Bytes} (hfits : BlockFits block) :
    (UInt8.ofNat block.length).toNat = block.length := by
  obtain ⟨-, hhigh⟩ := hfits
  rw [UInt8.toNat_ofNat', Nat.mod_eq_of_lt (by omega)]

theorem readSize_goes {n : ℕ} (hn : 0 < n) {block : Bytes} (hfits : BlockFits block) :
    Process.Goes LineRead.byte (OnLine.readSize n) [.takes (.block, UInt8.ofNat block.length)]
      (.done (some (UInt8.ofNat block.length))) := by
  obtain ⟨n, rfl⟩ := Nat.exists_eq_succ_of_ne_zero (Nat.ne_of_gt hn)
  have hne : UInt8.ofNat block.length ≠ ENQ := by
    intro h
    have hlen := congrArg UInt8.toNat h
    rw [toNat_blockLength hfits] at hlen
    have henq : ENQ.toNat = 5 := rfl
    have hlow := hfits.1
    omega
  apply Process.Goes.read
  simp only [hne, if_false]
  exact .refl _

theorem recvFrame_goes {n : ℕ} (hn : 0 < n) {block : Bytes} (hfits : BlockFits block) :
    Process.Goes LineRead.byte (OnLine.recvFrame n)
      (((blockFrame block).map fun c => .takes (.block, c)) ++ [.puts (.handshake, ACK)])
      (.done (.received block)) := by
  have hin : ¬ (UInt8.ofNat block.length < 10 ∨ 254 < UInt8.ofNat block.length) := by
    have hsize := toNat_blockLength hfits
    obtain ⟨hlow, hhigh⟩ := hfits
    rw [UInt8.lt_iff_toNat_lt, UInt8.lt_iff_toNat_lt, hsize]
    simp only [UInt8.reduceToNat]
    omega
  have hchecksum := readBytes_goes (secsCalcChecksum block)
  rw [length_secsCalcChecksum] at hchecksum
  have hblock := readBytes_goes block
  rw [blockFrame, List.map_cons, List.map_append, List.cons_append, List.append_assoc]
  apply (readSize_goes hn hfits).andThen
  simp only [hin, if_false]
  rw [toNat_blockLength hfits]
  apply hblock.andThen
  apply hchecksum.andThen
  simp only [if_true]
  exact .write (.refl _)

/-- The block is received once `ENQ` is. -/
theorem recvEnquired_goes {n : ℕ} (hn : 0 < n) {block : Bytes} (hfits : BlockFits block) :
    Process.Goes LineRead.byte (OnLine.recvEnquired n) ((answered block).map .other)
      (.done (.received block)) := by
  have hevents : (answered block).map Event.other = Event.puts (.handshake, EOT) ::
      (((blockFrame block).map fun c => Event.takes (.block, c)) ++
        [Event.puts (.handshake, ACK)]) := by
    simp [answered, Event.other, Function.comp_def]
  rw [hevents]
  exact .write (recvFrame_goes hn hfits)

theorem recvSecsI_goes {n : ℕ} (hn : 0 < n) {block : Bytes} (hfits : BlockFits block) :
    Process.Goes LineRead.byte (OnLine.recvSecsI n false) ((exchange block).map .other)
      (.done (.received block)) :=
  .read (recvEnquired_goes hn hfits)

theorem sendSecsI_goes {n : ℕ} (hn : 0 < n) (rbit : Bool) (block : Bytes) :
    Process.Goes LineRead.byte (OnLine.sendSecsI n rbit block) (exchange block)
      (.done .acknowledged) := by
  obtain ⟨n, rfl⟩ := Nat.exists_eq_succ_of_ne_zero (Nat.ne_of_gt hn)
  exact .write (.read (sendFrame_goes block))

/-- With the R-bit the other station's `ENQ` is passed over. -/
theorem sendSecsI_insists {n : ℕ} (hn : 1 < n) (block : Bytes) :
    Process.Goes LineRead.byte (OnLine.sendSecsI n true block)
      (enquiry :: .takes (.handshake, ENQ) :: answered block) (.done .acknowledged) := by
  obtain ⟨n, rfl⟩ : ∃ k, n = k + 2 := ⟨n - 2, by omega⟩
  exact .write (.read (.read (sendFrame_goes block)))

theorem sendSecsI_yields {n : ℕ} (hn : 0 < n) (block : Bytes) :
    Process.Goes LineRead.byte (OnLine.sendSecsI n false block)
      [enquiry, .takes (.handshake, ENQ)] (.done .contention) := by
  obtain ⟨n, rfl⟩ := Nat.exists_eq_succ_of_ne_zero (Nat.ne_of_gt hn)
  exact .write (.read (.refl _))

/-! ## A message -/

def SecsMessage.block (m : SecsMessage) (rbit : Bool) : Bytes :=
  blockHeader rbit m.head m.systemBytes 1 true

def SecsMessage.arrives (m : SecsMessage) (rbit : Bool) : ReceivedMessage := ⟨m.block rbit, []⟩

theorem SecsMessage.block_fits (m : SecsMessage) (rbit : Bool) : BlockFits (m.block rbit) := by
  have hlen : (m.block rbit).length = 10 := rfl
  constructor <;> omega

theorem SecsMessage.block_last (m : SecsMessage) (rbit : Bool) :
    isLastBlock (m.block rbit) = true := by
  have hbyte : (m.block rbit).getD 4 0 = setFlag (UInt8.ofNat ((1 >>> 8) &&& 255)) true := rfl
  rw [isLastBlock, hbyte]
  decide

section

variable {n : ℕ} (m : SecsMessage) (rbit : Bool)

theorem recvSecs_of_block {n : ℕ} {flag : Bool} {events : List (Event LineByte)}
    (hblock : Process.Goes LineRead.byte (OnLine.recvSecsI (n + 1) flag) events
      (.done (.received (m.block rbit)))) :
    Process.Goes LineRead.byte (OnLine.recvSecs (n + 1) flag) events
      (.done (some (m.arrives rbit))) := by
  have hloop : Process.Goes LineRead.byte (OnLine.recvLoop (n + 1) (n + 1) flag .start) events
      (.done (0, RecvState.start.add (m.block rbit))) := by
    rw [← List.append_nil events]
    apply hblock.andThen
    simp only [m.block_last rbit, if_true]
    exact .refl _
  rw [← List.append_nil events]
  exact hloop.andThen (.refl _)

theorem recvJob_goes (hn : 0 < n) :
    Process.Goes LineRead.byte (recvJob n) ((exchange (m.block rbit)).map .other)
      (.done ([], [m.arrives rbit])) := by
  obtain ⟨n, rfl⟩ := Nat.exists_eq_succ_of_ne_zero (Nat.ne_of_gt hn)
  have hblock := recvSecsI_goes hn (m.block_fits rbit)
  rw [← List.append_nil (List.map _ _)]
  exact (recvSecs_of_block m rbit hblock).andThen (.refl _)

/-- A message is received behind an `ENQ` that has been taken already. -/
theorem recvSecs_goes (hn : 0 < n) :
    Process.Goes LineRead.byte (OnLine.recvSecs n true) ((answered (m.block rbit)).map .other)
      (.done (some (m.arrives rbit))) := by
  obtain ⟨n, rfl⟩ := Nat.exists_eq_succ_of_ne_zero (Nat.ne_of_gt hn)
  exact recvSecs_of_block m rbit (recvEnquired_goes hn (m.block_fits rbit))

end

section

variable {n : ℕ} {opts : SecsOptions} (turns : ℕ) (received : List ReceivedMessage)
  (m : SecsMessage)

def sending (n : ℕ) (opts : SecsOptions) (m : SecsMessage) (turns : ℕ)
    (received : List ReceivedMessage) : LineProcess JobResult := do
  let (iret, received) ← (do
    let (iret, received) ←
      OnLine.sendBlock n opts (m.block opts.rbit) turns opts.attempts received
    if iret ≠ 0 then pure (iret, received) else pure (iret, received))
  pure ([iret], received)

/-- The loop over the blocks has one turn. -/
theorem sendJob_eq (n : ℕ) (opts : SecsOptions) (m : SecsMessage) :
    sendJob n opts m = sending n opts m n [] := by
  rw [sendJob, OnLine.sendSecsII, OnLine.blockLoop]
  rfl

theorem sending_goes_of {events : List (Event LineByte)} (h : Process.Goes LineRead.byte
      (OnLine.sendBlock n opts (m.block opts.rbit) turns opts.attempts received) events
      (.done (0, received))) :
    Process.Goes LineRead.byte (sending n opts m turns received) events
      (.done ([0], received)) := by
  unfold sending
  exact (h.bind _).bind _

theorem sending_goes (hn : 0 < n) (hattempts : opts.attempts ≠ 0) :
    Process.Goes LineRead.byte (sending n opts m (turns + 1) received)
      (exchange (m.block opts.rbit)) (.done ([0], received)) := by
  apply sending_goes_of
  rw [OnLine.sendBlock, if_neg hattempts, ← List.append_nil (exchange _)]
  exact (sendSecsI_goes hn opts.rbit _).andThen (.refl _)

theorem sending_insists (hn : 1 < n) (hattempts : opts.attempts ≠ 0) (hrbit : opts.rbit = true) :
    Process.Goes LineRead.byte (sending n opts m (turns + 1) received)
      (enquiry :: .takes (.handshake, ENQ) :: answered (m.block opts.rbit))
      (.done ([0], received)) := by
  apply sending_goes_of
  rw [OnLine.sendBlock, if_neg hattempts, ← List.append_nil (answered _)]
  rw [hrbit]
  exact (sendSecsI_insists hn _).andThen (.refl _)

/-- Without the R-bit the other station's message is received first, and then the sending starts
again. -/
theorem sending_yields (hn : 0 < n) (hattempts : opts.attempts ≠ 0) (hrbit : opts.rbit = false)
    (m' : SecsMessage) (rbit : Bool) :
    Process.Goes LineRead.byte (sending n opts m (turns + 1) received)
      (enquiry :: .takes (.handshake, ENQ) :: (answered (m'.block rbit)).map .other)
      (sending n opts m turns (received ++ [m'.arrives rbit])) := by
  refine Process.Goes.bind (Process.Goes.bind ?_ _) _
  rw [OnLine.sendBlock, if_neg hattempts, ← List.append_nil ((answered _).map _)]
  rw [hrbit]
  apply (sendSecsI_yields hn _).andThen
  exact (recvSecs_goes m' rbit hn).andThen (.refl _)

/-- Sending starts with `ENQ`. -/
theorem sending_starts (hn : 0 < n) (hattempts : opts.attempts ≠ 0) :
    ∃ w, sending n opts m (turns + 1) received = .write .handshake ENQ w := by
  have h := sending_goes turns received m hn hattempts
  generalize sending n opts m (turns + 1) received = p at h
  cases h with
  | write h => exact ⟨_, rfl⟩

end

end ScOpen
