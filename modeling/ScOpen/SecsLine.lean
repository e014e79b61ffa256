import ScOpen.CTypes

/-!
# A SECS-I line

Two stations send each other single control characters and blocks over a serial line. A block is
announced by `ENQ`, asked for with `EOT`, and answered with `ACK` or `NAK`; it carries its size in
front and a checksum behind. The line holds what the reads of one station come to and what that
station has written.
-/

namespace ScOpen

def ENQ : UInt8 := 0x05
def EOT : UInt8 := 0x04
def ACK : UInt8 := 0x06
def NAK : UInt8 := 0x15

/-- What a read of one character comes to. When a protocol timer expires while it waits, the alarm
jumps to where `do_the_setsigjump()` was called from there, and as that call is over, the program
goes on behind the read, which so returns 1 like one that has failed. -/
inductive LineRead where
  | byte (c : UInt8)
  | timeout
  | failed

/-- One station's end of a line. `room` is how many bytes can be written before the connection
breaks, and `blocks` are the blocks that were written in full. -/
structure SecsLine where
  reads : List LineRead
  room : Option ℕ
  written : Bytes
  blocks : List Bytes

def SecsLine.readc (line : SecsLine) : LineRead × SecsLine :=
  match line.reads with
  | [] => (.failed, line)
  | r :: reads => (r, { line with reads := reads })

/-- `my_writec()`. -/
def SecsLine.writec (line : SecsLine) (c : UInt8) : Option SecsLine :=
  match line.room with
  | some 0 => none
  | some (n + 1) => some { line with room := some n, written := line.written ++ [c] }
  | none => some { line with written := line.written ++ [c] }

/-- Writes one byte after the other; nothing is said of a line whose connection has broken. -/
def SecsLine.writeBytes (line : SecsLine) (bytes : Bytes) : Option SecsLine :=
  bytes.foldlM SecsLine.writec line

def secsCalcChecksum (buffer : Bytes) : Bytes :=
  let v := buffer.foldl (fun v b => (v + b.toNat) % 2 ^ 32) 0
  [UInt8.ofNat ((v >>> 8) &&& 255), UInt8.ofNat (v &&& 255)]

theorem SecsLine.writec_of_room {line : SecsLine} (h : line.room = none) (c : UInt8) :
    line.writec c = some { line with written := line.written ++ [c] } := by
  rw [writec, h]

theorem SecsLine.writeBytes_of_room {line : SecsLine} (h : line.room = none) (bytes : Bytes) :
    line.writeBytes bytes = some { line with written := line.written ++ bytes } := by
  induction bytes generalizing line with
  | nil => simp [writeBytes]
  | cons c bytes ih =>
      have hroom : ({ line with written := line.written ++ [c] } : SecsLine).room = none := h
      have hrest := ih hroom
      rw [writeBytes] at hrest ⊢
      rw [List.foldlM_cons, writec_of_room h]
      simpa using hrest

theorem SecsLine.writec_reads {line line' : SecsLine} {c : UInt8} (h : line.writec c = some line') :
    line'.reads = line.reads ∧ line'.blocks = line.blocks := by
  unfold writec at h
  split at h <;> cases h <;> exact ⟨rfl, rfl⟩

theorem SecsLine.writeBytes_reads {line line' : SecsLine} {bytes : Bytes}
    (h : line.writeBytes bytes = some line') :
    line'.reads = line.reads ∧ line'.blocks = line.blocks := by
  induction bytes generalizing line with
  | nil =>
      cases h
      exact ⟨rfl, rfl⟩
  | cons c bytes ih =>
      rw [writeBytes, List.foldlM_cons] at h
      obtain ⟨line₁, hwrite, hrest⟩ := Option.bind_eq_some_iff.1 h
      obtain ⟨hreads, hblocks⟩ := writec_reads hwrite
      obtain ⟨hreads', hblocks'⟩ := ih hrest
      exact ⟨hreads'.trans hreads, hblocks'.trans hblocks⟩

theorem SecsLine.readc_shrinks (line : SecsLine) :
    line.readc.2.reads.length ≤ line.reads.length := by
  unfold readc
  split
  · exact le_rfl
  · rename_i hreads
    rw [hreads, List.length_cons]
    exact Nat.le_succ _

end ScOpen
