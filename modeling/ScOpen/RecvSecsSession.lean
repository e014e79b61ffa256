import ScOpen.RecvSecs
import ScOpen.SendSecs

/-!
# Receiving what arrives on a line

`recv_secs()` is called again and again while characters arrive. What it hands on depends only on
the order in which blocks are received and refused: a refused block ends the call and drops what it
has collected, and a last block ends it with a message (`deliver`).
-/

namespace ScOpen

/-- The messages from at most `n` calls of `recv_secs()` while there are reads. -/
def session : ℕ → SecsLine → List ReceivedMessage
  | 0, _ => []
  | n + 1, line =>
      if line.reads.isEmpty then []
      else
        let (message, line) := recvSecs false line
        message.toList ++ session n line

def Naked (reads : List LineRead) : Prop :=
  ∀ rest written blocks, ∃ answer, recvSecsI false ⟨reads ++ rest, none, written, blocks⟩ =
    (.refused, ⟨rest, none, written ++ answer ++ [NAK], blocks⟩)

inductive Arrival where
  | block (b : Bytes)
  | naked (reads : List LineRead) (h : Naked reads)

def transmission (block : Bytes) : List LineRead := (ENQ :: blockFrame block).map .byte

def Arrival.reads : Arrival → List LineRead
  | .block b => transmission b
  | .naked reads _ => reads

/-- The length of a block has a place in `block[254]`, and there is a whole header. -/
def BlockFits (block : Bytes) : Prop := 10 ≤ block.length ∧ block.length ≤ 254

def Arrival.Fits : Arrival → Prop
  | .block b => BlockFits b
  | .naked _ _ => True

def deliver : RecvState → List Arrival → List ReceivedMessage
  | _, [] => []
  | _, .naked _ _ :: arrivals => deliver .start arrivals
  | st, .block b :: arrivals =>
      if isLastBlock b then ⟨(st.add b).header, (st.add b).body⟩ :: deliver .start arrivals
      else deliver (st.add b) arrivals

/-! ## One block -/

theorem readBytes_bytes (bytes : Bytes) (rest : List LineRead) :
    readBytes bytes.length (bytes.map .byte ++ rest) = (some bytes, rest) := by
  induction bytes with
  | nil => rfl
  | cons c bytes ih =>
      rw [List.length_cons, List.map_cons, List.cons_append]
      simp only [readBytes, ih, Option.map_some]

theorem length_secsCalcChecksum (block : Bytes) : (secsCalcChecksum block).length = 2 := rfl

theorem recvChecksum_received (block : Bytes) (rest : List LineRead) (written : Bytes)
    (blocks : List Bytes) :
    recvChecksum block ⟨(secsCalcChecksum block).map .byte ++ rest, none, written, blocks⟩ =
      (.received block, ⟨rest, none, written ++ [ACK], blocks⟩) := by
  have hchecksum := readBytes_bytes (secsCalcChecksum block) rest
  rw [length_secsCalcChecksum] at hchecksum
  simp only [recvChecksum, hchecksum, if_true]
  rw [SecsLine.writec_of_room rfl]

theorem recvChecksum_refused {block cs : Bytes} (hcs : cs.length = 2)
    (hne : cs ≠ secsCalcChecksum block) (rest : List LineRead) (room : Option ℕ) (written : Bytes)
    (blocks : List Bytes) :
    recvChecksum block ⟨cs.map .byte ++ rest, room, written, blocks⟩ =
      sendNak ⟨completion rest, room, written, blocks⟩ := by
  have hchecksum := readBytes_bytes cs rest
  rw [hcs] at hchecksum
  simp only [recvChecksum, hchecksum, hne, if_false]

/-- The size and the bytes of a block are read, and then its checksum. -/
theorem recvFrame_block {block : Bytes} (hfits : BlockFits block) (cs : Bytes)
    (rest : List LineRead) (room : Option ℕ) (written : Bytes) (blocks : List Bytes) :
    recvFrame ⟨(UInt8.ofNat block.length :: (block ++ cs)).map .byte ++ rest, room, written,
        blocks⟩ =
      recvChecksum block ⟨cs.map .byte ++ rest, room, written, blocks⟩ := by
  obtain ⟨hlow, hhigh⟩ := hfits
  have hsize : (UInt8.ofNat block.length).toNat = block.length := by
    rw [UInt8.toNat_ofNat', Nat.mod_eq_of_lt (by omega)]
  have hne : UInt8.ofNat block.length ≠ ENQ := by
    intro h
    have hlen := congrArg UInt8.toNat h
    rw [hsize] at hlen
    have henq : ENQ.toNat = 5 := rfl
    omega
  have hin : ¬ (UInt8.ofNat block.length < 10 ∨ 254 < UInt8.ofNat block.length) := by
    rw [UInt8.lt_iff_toNat_lt, UInt8.lt_iff_toNat_lt, hsize]
    simp only [UInt8.reduceToNat]
    omega
  have hbytes := readBytes_bytes block (cs.map .byte ++ rest)
  simp only [recvFrame, List.map_cons, List.map_append, List.cons_append, List.append_assoc,
    readSize, hne, if_false, hin, hsize, hbytes]

/-- A block that arrives as it was sent is received. -/
theorem recvSecsI_transmission {block : Bytes} (hfits : BlockFits block) (rest : List LineRead)
    (written : Bytes) (blocks : List Bytes) :
    recvSecsI false ⟨transmission block ++ rest, none, written, blocks⟩ =
      (.received block, ⟨rest, none, written ++ [EOT] ++ [ACK], blocks⟩) := by
  rw [transmission, List.map_cons, List.cons_append, recvSecsI]
  simp only [Bool.false_eq_true, if_false, SecsLine.readc, if_true]
  rw [recvEnquired, SecsLine.writec_of_room rfl]
  exact (recvFrame_block hfits _ rest none _ blocks).trans
    (recvChecksum_received block rest _ blocks)

/-! ## The loop over the blocks -/

theorem recvLoop_eq (flag : Bool) (st : RecvState) (line : SecsLine) :
    recvLoop flag st line =
      match recvSecsI flag line with
      | (.failed, line') => (1, st, line')
      | (.refused, line') => (2, st, line')
      | (.expired, line') => (1, st, line')
      | (.received block, line') =>
          if isLastBlock block then (0, st.add block, line')
          else recvLoop false (st.add block) line' := by
  rw [recvLoop]
  split <;> rename_i heq <;> simp only [heq]

def finish (n : ℕ) (st : RecvState) (line : SecsLine) : List ReceivedMessage :=
  (if (recvLoop false st line).1 = 0 then
    [⟨(recvLoop false st line).2.1.header, (recvLoop false st line).2.1.body⟩] else []) ++
    session n (recvLoop false st line).2.2

theorem session_succ (n : ℕ) (line : SecsLine) :
    session (n + 1) line = if line.reads.isEmpty then [] else finish n .start line := by
  rw [session]
  split
  · rfl
  · simp only [recvSecs, finish]
    split <;> rfl

theorem session_nil (n : ℕ) (room : Option ℕ) (written : Bytes) (blocks : List Bytes) :
    session n ⟨[], room, written, blocks⟩ = [] := by
  cases n with
  | zero => rfl
  | succ n =>
      rw [session_succ]
      rfl

/-- What a session hands on is what the arrivals come to. -/
theorem finish_arrivals (arrivals : List Arrival) (hfits : ∀ a ∈ arrivals, a.Fits) (n : ℕ)
    (hn : arrivals.length ≤ n) (st : RecvState) (written : Bytes) (blocks : List Bytes) :
    finish n st ⟨arrivals.flatMap Arrival.reads, none, written, blocks⟩ = deliver st arrivals := by
  induction arrivals generalizing n st written with
  | nil =>
      have hfailed : recvLoop false st ⟨[], none, written, blocks⟩ =
          (1, st, ⟨[], none, written, blocks⟩) := by
        rw [recvLoop_eq]
        rfl
      rw [List.flatMap_nil, finish, hfailed, deliver]
      exact session_nil n _ _ _
  | cons a arrivals ih =>
      have hrest := fun a' ha' => hfits a' (List.mem_cons_of_mem a ha')
      obtain ⟨m, rfl⟩ : ∃ m, n = m + 1 := ⟨n - 1, by rw [List.length_cons] at hn; omega⟩
      rw [List.length_cons, Nat.add_le_add_iff_right] at hn
      have hnext : ∀ written, session (m + 1)
          ⟨arrivals.flatMap Arrival.reads, none, written, blocks⟩ = deliver .start arrivals := by
        intro written
        rw [session_succ]
        split
        · rename_i hempty
          have hnil : arrivals.flatMap Arrival.reads = [] := List.isEmpty_iff.1 hempty
          have hstart := ih hrest m hn .start written
          rw [hnil, finish, recvLoop_eq] at hstart
          rw [← hstart]
          exact (session_nil m _ _ _).symm
        · exact ih hrest m hn .start written
      cases a with
      | naked reads h =>
          obtain ⟨answer, hrefused⟩ := h (arrivals.flatMap Arrival.reads) written blocks
          rw [List.flatMap_cons, Arrival.reads, finish, recvLoop_eq, hrefused, deliver]
          exact hnext _
      | block b =>
          have hb : BlockFits b := hfits (.block b) List.mem_cons_self
          have hreceived :=
            recvSecsI_transmission hb (arrivals.flatMap Arrival.reads) written blocks
          rw [List.flatMap_cons, Arrival.reads, finish, recvLoop_eq, hreceived, deliver]
          by_cases hlast : isLastBlock b = true
          · simp only [hlast, if_true, List.singleton_append, List.cons.injEq, true_and]
            exact hnext _
          · simp only [hlast, Bool.false_eq_true, if_false]
            exact ih hrest (m + 1) (by omega) (st.add b) _

theorem session_arrivals {arrivals : List Arrival} (hfits : ∀ a ∈ arrivals, a.Fits)
    (hne : arrivals.flatMap Arrival.reads ≠ []) (n : ℕ) (hn : arrivals.length ≤ n)
    (written : Bytes) (blocks : List Bytes) :
    session (n + 1) ⟨arrivals.flatMap Arrival.reads, none, written, blocks⟩ =
      deliver .start arrivals := by
  rw [session_succ, if_neg (by simpa using hne), finish_arrivals arrivals hfits n hn]

end ScOpen
