import ScOpen.RecvSecsSession
import ScOpen.SumChecks

/-!
# The checksum of a SECS-I block

The sender puts the sum of a block behind it, the more significant byte first, and the receiver
compares it with the sum of what it has read.
-/

namespace ScOpen

open SumChecks

def frameReads (flag : Bool) (frame : Bytes) : List LineRead :=
  ((if flag then [] else [ENQ]) ++ frame).map .byte

section

variable {block got : Bytes} {flag : Bool} {line line' : SecsLine} {rest : List LineRead}

/-! ## The sum -/

theorem foldl_checksum (buffer : Bytes) (v : ℕ) :
    buffer.foldl (fun v b => (v + b.toNat) % 2 ^ 32) v % 2 ^ 32 =
      (v + (buffer.map UInt8.toNat).sum) % 2 ^ 32 := by
  induction buffer generalizing v with
  | nil => rfl
  | cons b buffer ih =>
      rw [List.foldl_cons, ih, List.map_cons, List.sum_cons, Nat.mod_add_mod, Nat.add_assoc]

/-- The two bytes are the sum modulo `2 ^ 16`. -/
theorem secsCalcChecksum_eq (buffer : Bytes) :
    secsCalcChecksum buffer = beBytes 2 (SumChecks.sum UInt8.toNat (256 ^ 2) buffer) := by
  have hsum := foldl_checksum buffer 0
  rw [Nat.zero_add] at hsum
  have hmask : ∀ v, v &&& 255 = v % 256 := fun v => Nat.and_two_pow_sub_one_eq_mod v 8
  have hbytes : ∀ n, beBytes 2 n = [UInt8.ofNat (n / 256), UInt8.ofNat n] := fun n => rfl
  rw [SumChecks.sum, beBytes_mod, hbytes, secsCalcChecksum, hmask, hmask,
    Nat.shiftRight_eq_div_pow]
  refine congrArg₂ (fun b c => [b, c]) (UInt8.toNat.inj ?_) (UInt8.toNat.inj ?_)
  · rw [UInt8.toNat_ofNat', UInt8.toNat_ofNat']
    omega
  · rw [UInt8.toNat_ofNat', UInt8.toNat_ofNat']
    omega

theorem accepted_checksum (block : Bytes) :
    Accepted UInt8.toNat (256 ^ 2) (beBytes 2) block (secsCalcChecksum block) :=
  secsCalcChecksum_eq block

/-- One changed byte in the block or in its checksum is found. -/
theorem checksum_ne_of_changed {block' cs : Bytes}
    (h : Changed (block ++ secsCalcChecksum block) (block' ++ cs))
    (hlength : block'.length = block.length) : cs ≠ secsCalcChecksum block' := by
  have hbyte : ∀ c d : UInt8, c.toNat ≡ d.toNat [MOD 256 ^ 2] → c = d := by
    intro c d hcd
    have hc : c.toNat < 256 := c.toNat_lt
    have hd : d.toNat < 256 := d.toNat_lt
    exact UInt8.toNat.inj (hcd.eq_of_lt_of_lt (by omega) (by omega))
  have hdigits : ∀ a b, a < 256 ^ 2 → b < 256 ^ 2 → beBytes 2 a = beBytes 2 b → a = b := by
    intro a b ha hb heq
    rw [← beValue_beBytes_of_lt ha, heq, beValue_beBytes_of_lt hb]
  intro hcs
  exact not_accepted_of_changed (by decide) hbyte hdigits (accepted_checksum block) h hlength
    (hcs.trans (secsCalcChecksum_eq block'))

/-! ## The sender -/

theorem SecsLine.writec_written {c : UInt8} (h : line.writec c = some line') :
    line'.written = line.written ++ [c] := by
  unfold writec at h
  split at h <;> cases h <;> rfl

theorem SecsLine.writeBytes_written {bytes : Bytes} (h : line.writeBytes bytes = some line') :
    line'.written = line.written ++ bytes := by
  induction bytes generalizing line with
  | nil =>
      cases h
      exact (List.append_nil _).symm
  | cons c bytes ih =>
      rw [writeBytes, List.foldlM_cons] at h
      obtain ⟨line₁, hwrite, hrest⟩ := Option.bind_eq_some_iff.1 h
      rw [ih hrest, writec_written hwrite, List.append_assoc]
      rfl

theorem SecsLine.readc_written (line : SecsLine) :
    line.readc.2.written = line.written ∧ line.readc.2.blocks = line.blocks := by
  unfold readc
  split <;> exact ⟨rfl, rfl⟩

theorem sendFrame_written {status : SendStatus} (h : sendFrame block line = (status, line'))
    (hsent : line'.blocks ≠ line.blocks) : line'.written = line.written ++ blockFrame block := by
  unfold sendFrame at h
  split at h
  · cases h
    exact absurd rfl hsent
  · rename_i line₁ hwrite
    have hread := ({ line₁ with blocks := line₁.blocks ++ [block] } : SecsLine).readc_written.1
    rw [← SecsLine.writeBytes_written hwrite]
    split at h <;> rename_i heq <;> cases h <;> rw [heq] at hread <;> exact hread

/-- When a block has been written, `ENQ` and its frame have been. -/
theorem sendSecsI_written {rbit : Bool} {status : SendStatus}
    (h : sendSecsI rbit block line = (status, line')) (hsent : line'.blocks ≠ line.blocks) :
    line'.written = line.written ++ ENQ :: blockFrame block := by
  unfold sendSecsI at h
  split at h
  · cases h
    exact absurd rfl hsent
  · rename_i line₁ hwrite
    have hblocks := (SecsLine.writec_reads hwrite).2
    split at h
    · cases h
      exact absurd hblocks hsent
    · cases h
      exact absurd hblocks hsent
    · have hframe := sendFrame_written h (hblocks.symm ▸ hsent)
      rw [hframe, SecsLine.writec_written hwrite, List.append_assoc]
      rfl

/-! ## The receiver -/

/-- Behind `ENQ` the frame is read once `EOT` has been written. -/
theorem recvSecsI_frame (frame : Bytes) (room : Option ℕ) (written : Bytes) (blocks : List Bytes) :
    recvSecsI flag ⟨frameReads flag frame ++ rest, room, written, blocks⟩ =
      recvEnquired ⟨frame.map .byte ++ rest, room, written, blocks⟩ := by
  cases flag with
  | true => rfl
  | false =>
      rw [recvSecsI, frameReads, if_neg Bool.false_ne_true]
      exact if_pos rfl

/-- Where the block and its checksum do not agree, `NAK` is answered. -/
theorem recvEnquired_refused {cs : Bytes} (hfits : BlockFits block) (hcs : cs.length = 2)
    (hne : cs ≠ secsCalcChecksum block) (written : Bytes) (blocks : List Bytes) :
    recvEnquired ⟨(UInt8.ofNat block.length :: (block ++ cs)).map .byte ++ rest, none, written,
        blocks⟩ =
      (.refused, ⟨completion rest, none, written ++ [EOT, NAK], blocks⟩) := by
  rw [recvEnquired, SecsLine.writec_of_room rfl]
  refine (recvFrame_block hfits cs rest none _ blocks).trans ?_
  rw [recvChecksum_refused hcs hne, sendNak, SecsLine.writec_of_room rfl]
  simp only [List.append_assoc, List.cons_append, List.nil_append]

/-- It is not received either when the connection breaks. -/
theorem recvEnquired_not_received {cs : Bytes} (hfits : BlockFits block) (hcs : cs.length = 2)
    (hne : cs ≠ secsCalcChecksum block) (room : Option ℕ) (written : Bytes) (blocks : List Bytes)
    (b : Bytes) :
    (recvEnquired ⟨(UInt8.ofNat block.length :: (block ++ cs)).map .byte ++ rest, room, written,
      blocks⟩).1 ≠ .received b := by
  have hnak : ∀ line : SecsLine, (sendNak line).1 ≠ .received b := by
    intro line h
    unfold sendNak at h
    split at h <;> cases h
  unfold recvEnquired
  split
  · exact fun h => by cases h
  · rename_i line₁ hwrite
    obtain ⟨hreads, -⟩ := SecsLine.writec_reads hwrite
    obtain ⟨reads, room', written', blocks'⟩ := line₁
    subst hreads
    rw [recvFrame_block hfits, recvChecksum_refused hcs hne]
    exact hnak _

end

/-- Every block: what the sender writes is received as it was sent and acknowledged, and with one
byte of the block or of its checksum changed it is refused. -/
theorem secsI_block_checked {block : Bytes} (hfits : BlockFits block) :
    (∀ rbit line status line', sendSecsI rbit block line = (status, line') →
      line'.blocks ≠ line.blocks → line'.written = line.written ++ ENQ :: blockFrame block) ∧
    ∀ flag rest written blocks,
      recvSecsI flag ⟨frameReads flag (blockFrame block) ++ rest, none, written, blocks⟩ =
          (.received block, ⟨rest, none, written ++ [EOT, ACK], blocks⟩) ∧
        ∀ got, Changed (block ++ secsCalcChecksum block) got →
          recvSecsI flag ⟨frameReads flag (UInt8.ofNat block.length :: got) ++ rest, none, written,
              blocks⟩ =
            (.refused, ⟨completion rest, none, written ++ [EOT, NAK], blocks⟩) ∧
          ∀ room b, (recvSecsI flag ⟨frameReads flag (UInt8.ofNat block.length :: got) ++ rest,
            room, written, blocks⟩).1 ≠ .received b := by
  refine ⟨fun rbit line status line' => sendSecsI_written, fun flag rest written blocks => ?_⟩
  constructor
  · rw [recvSecsI_frame, recvEnquired, SecsLine.writec_of_room rfl]
    refine (recvFrame_block hfits _ rest none _ blocks).trans ?_
    rw [recvChecksum_received, List.append_assoc]
    rfl
  · intro got hgot
    obtain ⟨block', cs, rfl, hlength⟩ : ∃ block' cs, got = block' ++ cs ∧
        block'.length = block.length := by
      refine ⟨got.take block.length, got.drop block.length, (List.take_append_drop _ _).symm, ?_⟩
      rw [List.length_take, hgot.length_eq, List.length_append]
      exact Nat.min_eq_left (Nat.le_add_right _ _)
    have hcs : cs.length = 2 := by
      have htotal := hgot.length_eq
      rw [List.length_append, List.length_append, length_secsCalcChecksum, hlength] at htotal
      exact Nat.add_left_cancel htotal
    have hne := checksum_ne_of_changed hgot hlength
    have hfits' : BlockFits block' := by
      rw [BlockFits, hlength]
      exact hfits
    rw [← hlength]
    constructor
    · rw [recvSecsI_frame, recvEnquired_refused hfits' hcs hne]
    · intro room b
      rw [recvSecsI_frame]
      exact recvEnquired_not_received hfits' hcs hne room written blocks b

/-- A block of a header only. -/
theorem secsI_block_checked_header :
    recvSecsI false ⟨frameReads false (blockFrame [0, 1, 0x81, 1, 0x80, 1, 0, 0, 0, 7]) ++ [], none,
        [], []⟩ =
      (.received [0, 1, 0x81, 1, 0x80, 1, 0, 0, 0, 7], ⟨[], none, [EOT, ACK], []⟩) :=
  ((secsI_block_checked (by unfold BlockFits; decide)).2 false [] [] []).1

end ScOpen
