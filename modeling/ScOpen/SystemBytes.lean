import ScOpen.SendSecs

/-!
# System bytes

The last four bytes of a message header. A primary message's system bytes are read from its header
when it is received, and a reply's are written into its header, or into the header of each of its
blocks.
-/

namespace ScOpen

abbrev MessageHeader : Type := { bytes : Bytes // bytes.length = 10 }

def systemBytesField (message : Bytes) : Bytes := (message.drop 6).take 4

theorem length_systemBytesField (header : MessageHeader) :
    (systemBytesField header.val).length = 4 := by
  rw [systemBytesField, List.length_take, List.length_drop, header.property]
  rfl

/-! ## Received messages -/

inductive SecsProtocol where
  | secs
  | hsms

def recvSystemBytes : SecsProtocol → MessageHeader → ℕ
  | .secs, header =>
      ((header.val.getD 6 0).toNat * 16777216 + (header.val.getD 7 0).toNat * 65536 +
        (header.val.getD 8 0).toNat * 256 + (header.val.getD 9 0).toNat) % 2 ^ 32
  | .hsms, header => leValue (swap (systemBytesField header.val))

/-- Both read the field's value, most significant byte first. -/
theorem recvSystemBytes_eq (proto : SecsProtocol) (header : MessageHeader) :
    recvSystemBytes proto header = beValue (systemBytesField header.val) := by
  cases proto with
  | hsms => exact leValue_swap _
  | secs =>
      obtain ⟨bytes, hlength⟩ := header
      obtain ⟨a, b, c, d, hfield⟩ := List.length_eq_four.1
        (length_systemBytesField ⟨bytes, hlength⟩)
      have hat : ∀ i < 4, bytes.getD (6 + i) 0 = [a, b, c, d].getD i 0 := by
        intro i hi
        rw [← hfield, systemBytesField]
        simp [List.getD, hi]
      have hlt := beValue_lt [a, b, c, d]
      have hvalue : beValue [a, b, c, d] =
          d.toNat + 256 * (c.toNat + 256 * (b.toNat + 256 * (a.toNat + 256 * 0))) := rfl
      simp only [recvSystemBytes]
      rw [hfield, hat 0 (by omega), hat 1 (by omega), hat 2 (by omega), hat 3 (by omega)]
      simp only [List.getD_cons_zero, List.getD_cons_succ, List.length_cons, List.length_nil]
        at hlt ⊢
      omega

/-! ## Replies -/

def hsmsHeader (head : MessageHead) (systemBytes : ℕ) : Bytes :=
  [UInt8.ofNat ((head.deviceId >>> 8) &&& 255), UInt8.ofNat (head.deviceId &&& 255),
    setFlag (UInt8.ofNat head.stream) (head.waitBit ≠ 0), UInt8.ofNat head.function, 0, 0] ++
    swap (leBytes 4 systemBytes)

theorem systemBytesField_hsmsHeader (head : MessageHead) (systemBytes : ℕ) (body : Bytes) :
    systemBytesField (hsmsHeader head systemBytes ++ body) = beBytes 4 systemBytes := by
  rw [← swap_leBytes]
  rfl

theorem systemBytesField_blockHeader (rbit : Bool) (head : MessageHead)
    (systemBytes blockNum : ℕ) (last : Bool) (data : Bytes) :
    systemBytesField (blockHeader rbit head systemBytes blockNum last ++ data) =
      beBytes 4 systemBytes := by
  have hfield : systemBytesField (blockHeader rbit head systemBytes blockNum last ++ data) =
      [UInt8.ofNat ((systemBytes >>> 24) &&& 0xFF), UInt8.ofNat ((systemBytes >>> 16) &&& 0xFF),
        UInt8.ofNat ((systemBytes >>> 8) &&& 0xFF), UInt8.ofNat (systemBytes &&& 0xFF)] := rfl
  have hbytes : beBytes 4 systemBytes =
      [UInt8.ofNat (systemBytes / 256 / 256 / 256), UInt8.ofNat (systemBytes / 256 / 256),
        UInt8.ofNat (systemBytes / 256), UInt8.ofNat systemBytes] := rfl
  have hbyte : ∀ n : ℕ, UInt8.ofNat (n &&& 0xFF) = UInt8.ofNat n := by
    intro n
    apply UInt8.toNat_inj.1
    rw [UInt8.toNat_ofNat', UInt8.toNat_ofNat', Nat.and_two_pow_sub_one_eq_mod n 8]
    omega
  rw [hfield, hbytes]
  simp only [hbyte, Nat.shiftRight_eq_div_pow, Nat.div_div_eq_div_mul]

theorem sendFrame_blocks (block : Bytes) (line : SecsLine) :
    ∀ b ∈ (sendFrame block line).2.blocks, b ∈ line.blocks ∨ b = block := by
  intro b hb
  unfold sendFrame at hb
  split at hb
  · exact .inl hb
  · rename_i line₁ hwrite
    have hblocks := (SecsLine.writeBytes_reads hwrite).2
    have hread : ∀ line : SecsLine, line.readc.2.blocks = line.blocks := by
      intro line
      unfold SecsLine.readc
      split <;> rfl
    have hread₁ := hread { line₁ with blocks := line₁.blocks ++ [block] }
    split at hb <;> rename_i heq <;> rw [heq] at hread₁ <;> simp only at hb hread₁ <;>
      rw [hread₁, hblocks] at hb <;> simpa using hb

theorem sendSecsI_blocks {rbit : Bool} {block : Bytes} {line line' : SecsLine}
    {status : SendStatus} (h : sendSecsI rbit block line = (status, line')) :
    ∀ b ∈ line'.blocks, b ∈ line.blocks ∨ b = block := by
  intro b hb
  unfold sendSecsI at h
  split at h
  · cases h
    exact .inl hb
  · rename_i line₁ hwrite
    rw [← (SecsLine.writec_reads hwrite).2]
    split at h
    · cases h
      exact .inl hb
    · cases h
      exact .inl hb
    · rename_i reads hwait
      have hsend := sendFrame_blocks block { line₁ with reads := reads } b
      rw [h] at hsend
      exact hsend hb

/-- However often a block is sent again, it is the only one that is. -/
theorem sendBlock_blocks (opts : SecsOptions) (block : Bytes) (retry : ℕ) (line : SecsLine) :
    ∀ b ∈ (sendBlock opts block retry line).2.blocks, b ∈ line.blocks ∨ b = block := by
  fun_induction sendBlock opts block retry line with
  | case1 line => exact fun b hb => .inl hb
  | case2 retry line hretry line' hsend => exact sendSecsI_blocks hsend
  | case3 retry line hretry line' hsend ih =>
      intro b hb
      rcases ih b hb with hb | hb
      · exact sendSecsI_blocks hsend b hb
      · exact .inr hb
  | case4 retry line hretry line' hsend hlast => exact sendSecsI_blocks hsend
  | case5 retry line hretry line' hsend hmore ih =>
      intro b hb
      rcases ih b hb with hb | hb
      · exact sendSecsI_blocks hsend b hb
      · exact .inr hb
  | case6 retry line hretry line' hsend => exact sendSecsI_blocks hsend

/-- Every block of a message carries its system bytes. -/
theorem blockLoop_blocks (opts : SecsOptions) (head : MessageHead) (systemBytes : ℕ)
    (msgPtr : Bytes) (msgSize blockNum : ℕ) (line : SecsLine) :
    ∀ b ∈ (blockLoop opts head systemBytes msgPtr msgSize blockNum line).2.blocks,
      b ∈ line.blocks ∨ systemBytesField b = beBytes 4 systemBytes := by
  have hblock : ∀ (last : Bool) (data : Bytes) (blockNum : ℕ) (line : SecsLine),
      ∀ b ∈ (sendBlock opts (blockHeader opts.rbit head systemBytes blockNum last ++ data)
        opts.attempts line).2.blocks,
      b ∈ line.blocks ∨ systemBytesField b = beBytes 4 systemBytes := by
    intro last data blockNum line b hb
    rcases sendBlock_blocks opts _ _ line b hb with hb | rfl
    · exact .inl hb
    · exact .inr (systemBytesField_blockHeader ..)
  fun_induction blockLoop opts head systemBytes msgPtr msgSize blockNum line with
  | case1 => exact hblock _ _ _ _
  | case2 msgPtr msgSize blockNum line dataSize left block r hsent hleft ih =>
      intro b hb
      rcases ih b hb with hb | hb
      · exact hblock _ _ _ _ b hb
      · exact .inr hb
  | case3 => exact hblock _ _ _ _

end ScOpen
