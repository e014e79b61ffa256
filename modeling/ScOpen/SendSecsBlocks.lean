import ScOpen.SendSecs

/-!
# The blocks of a message

What the header of a block says when it is read back, and how a message is cut into blocks: as
many as are needed, numbered from 1, the last one marked.
-/

namespace ScOpen

/-! ## What a header says -/

structure BlockFields where
  deviceId : ℕ
  waitBit : Bool
  stream : ℕ
  function : ℕ
  lastBlock : Bool
  blockNum : ℕ
  systemBytes : ℕ
  deriving DecidableEq

def headerByte (block : Bytes) (i : ℕ) : ℕ := (block.getD i 0).toNat

def blockFields (block : Bytes) : BlockFields where
  deviceId := (headerByte block 0 &&& 0x7F) * 256 + headerByte block 1
  waitBit := headerByte block 2 &&& 0x80 ≠ 0
  stream := headerByte block 2 &&& 0x7F
  function := headerByte block 3
  lastBlock := headerByte block 4 &&& 0x80 ≠ 0
  blockNum := (headerByte block 4 &&& 0x7F) * 256 + headerByte block 5
  systemBytes := headerByte block 6 * 16777216 + headerByte block 7 * 65536 +
    headerByte block 8 * 256 + headerByte block 9

theorem and_low (n : ℕ) : n &&& 0x7F = n % 128 := Nat.and_two_pow_sub_one_eq_mod n 7

theorem and_byte (n : ℕ) : n &&& 255 = n % 256 := Nat.and_two_pow_sub_one_eq_mod n 8

theorem and_flag_ne_zero {n : ℕ} (h : n < 256) : n &&& 0x80 ≠ 0 ↔ 128 ≤ n := by
  revert n
  decide +kernel

theorem or_flag {n : ℕ} (h : n < 256) : n ||| 0x80 = n % 128 + 128 := by
  revert n
  decide +kernel

theorem toNat_setFlag (b : UInt8) (flag : Bool) :
    (setFlag b flag).toNat = if flag then b.toNat % 128 + 128 else b.toNat := by
  cases flag with
  | false => rfl
  | true =>
      have hor := or_flag b.toNat_lt
      simpa [setFlag, UInt8.toNat_or] using hor

theorem setFlag_low (b : UInt8) (flag : Bool) : (setFlag b flag).toNat &&& 0x7F = b.toNat % 128 := by
  rw [and_low, toNat_setFlag]
  split
  · omega
  · rfl

theorem setFlag_flag (b : UInt8) (flag : Bool) :
    (setFlag b flag).toNat &&& 0x80 ≠ 0 ↔ flag = true ∨ 128 ≤ b.toNat := by
  rw [and_flag_ne_zero (setFlag b flag).toNat_lt, toNat_setFlag]
  cases flag with
  | false => simp
  | true => simp

/-- What is read back from a header. -/
theorem blockFields_blockHeader (rbit : Bool) (head : MessageHead) (systemBytes blockNum : ℕ)
    (last : Bool) (data : Bytes) :
    blockFields (blockHeader rbit head systemBytes blockNum last ++ data) =
      { deviceId := head.deviceId % 32768
        waitBit := head.waitBit ≠ 0 ∨ 128 ≤ head.stream % 256
        stream := head.stream % 128
        function := head.function % 256
        lastBlock := last = true ∨ 128 ≤ blockNum / 256 % 256
        blockNum := blockNum % 32768
        systemBytes := systemBytes % 2 ^ 32 } := by
  have h8 : ∀ n : ℕ, n >>> 8 = n / 256 := fun n => Nat.shiftRight_eq_div_pow n 8
  have h16 : ∀ n : ℕ, n >>> 16 = n / 65536 := fun n => Nat.shiftRight_eq_div_pow n 16
  have h24 : ∀ n : ℕ, n >>> 24 = n / 16777216 := fun n => Nat.shiftRight_eq_div_pow n 24
  simp only [blockFields, blockHeader, headerByte, List.cons_append, List.getD_cons_zero,
    List.getD_cons_succ, setFlag_low, setFlag_flag, UInt8.toNat_ofNat', and_byte,
    h8, h16, h24]
  simp only [BlockFields.mk.injEq, Nat.mod_mod, decide_eq_true_eq]
  exact ⟨by omega, trivial, by omega, trivial, trivial, by omega, by omega⟩

/-! ## Cutting a message into blocks -/

def messageBlocks (rbit : Bool) (head : MessageHead) (systemBytes : ℕ) (message : Bytes)
    (blockNum : ℕ) : List Bytes :=
  if message.length ≤ 244 then [blockHeader rbit head systemBytes blockNum true ++ message]
  else (blockHeader rbit head systemBytes blockNum false ++ message.take 244) ::
    messageBlocks rbit head systemBytes (message.drop 244) (blockNum + 1)
termination_by message.length
decreasing_by
  rw [List.length_drop]
  omega

def MessageHead.Fits (head : MessageHead) : Prop :=
  head.stream < 128 ∧ head.function < 256 ∧ head.deviceId < 32768

/-- The blocks carry the message: as many as are needed, numbered from 1, the last one marked, all
with the same values otherwise, and with bodies of at most 244 bytes that join to the message. -/
structure Splits (blocks : List Bytes) (head : MessageHead) (systemBytes : ℕ) (message : Bytes) :
    Prop where
  count : blocks.length = max 1 ((message.length + 243) / 244)
  fields : ∀ i (_ : i < blocks.length), blockFields (blocks.getD i []) =
    { deviceId := head.deviceId
      waitBit := head.waitBit ≠ 0
      stream := head.stream
      function := head.function
      lastBlock := i + 1 = blocks.length
      blockNum := i + 1
      systemBytes := systemBytes }
  bodies_fit : ∀ b ∈ blocks, (b.drop 10).length ≤ 244
  bodies : (blocks.flatMap fun b => b.drop 10) = message

section

variable (rbit : Bool) (head : MessageHead) (systemBytes : ℕ)

theorem length_messageBlocks (message : Bytes) (blockNum : ℕ) :
    (messageBlocks rbit head systemBytes message blockNum).length =
      max 1 ((message.length + 243) / 244) := by
  induction hn : message.length using Nat.strong_induction_on generalizing message blockNum with
  | _ n ih =>
  rw [messageBlocks]
  by_cases hshort : message.length ≤ 244
  · rw [if_pos hshort, List.length_singleton]
    omega
  · have hrest := ih (message.drop 244).length (by rw [List.length_drop]; omega)
      (message.drop 244) (blockNum + 1) rfl
    rw [if_neg hshort, List.length_cons, hrest, List.length_drop]
    omega

theorem drop_blockHeader (blockNum : ℕ) (last : Bool) (data : Bytes) :
    (blockHeader rbit head systemBytes blockNum last ++ data).drop 10 = data := rfl

theorem messageBlocks_bodies (message : Bytes) (blockNum : ℕ) :
    ((messageBlocks rbit head systemBytes message blockNum).flatMap fun b => b.drop 10) =
      message := by
  induction hn : message.length using Nat.strong_induction_on generalizing message blockNum with
  | _ n ih =>
  rw [messageBlocks]
  by_cases hshort : message.length ≤ 244
  · rw [if_pos hshort, List.flatMap_singleton, drop_blockHeader]
  · have hrest := ih (message.drop 244).length (by rw [List.length_drop]; omega)
      (message.drop 244) (blockNum + 1) rfl
    rw [if_neg hshort, List.flatMap_cons, drop_blockHeader, hrest, List.take_append_drop]

theorem messageBlocks_bodies_fit (message : Bytes) (blockNum : ℕ) :
    ∀ b ∈ messageBlocks rbit head systemBytes message blockNum, (b.drop 10).length ≤ 244 := by
  induction hn : message.length using Nat.strong_induction_on generalizing message blockNum with
  | _ n ih =>
  intro b hb
  rw [messageBlocks] at hb
  by_cases hshort : message.length ≤ 244
  · rw [if_pos hshort, List.mem_singleton] at hb
    rwa [hb, drop_blockHeader]
  · rw [if_neg hshort] at hb
    rcases List.mem_cons.1 hb with rfl | hb
    · rw [drop_blockHeader, List.length_take]
      exact Nat.min_le_left _ _
    · exact ih (message.drop 244).length (by rw [List.length_drop]; omega) (message.drop 244)
        (blockNum + 1) rfl b hb

/-- The block numbers have fifteen bits. -/
theorem messageBlocks_fields (hhead : head.Fits) (hsystem : systemBytes < 2 ^ 32)
    (message : Bytes) (blockNum i : ℕ)
    (hi : i < (messageBlocks rbit head systemBytes message blockNum).length)
    (hnum : blockNum + i < 32768) :
    blockFields ((messageBlocks rbit head systemBytes message blockNum).getD i []) =
      { deviceId := head.deviceId
        waitBit := head.waitBit ≠ 0
        stream := head.stream
        function := head.function
        lastBlock := i + 1 = (messageBlocks rbit head systemBytes message blockNum).length
        blockNum := blockNum + i
        systemBytes := systemBytes } := by
  obtain ⟨hstream, hfunction, hdevice⟩ := hhead
  induction hn : message.length using Nat.strong_induction_on generalizing message blockNum i with
  | _ n ih =>
  rw [messageBlocks] at hi ⊢
  by_cases hshort : message.length ≤ 244
  · rw [if_pos hshort, List.length_singleton] at hi ⊢
    have hzero : i = 0 := by omega
    subst hzero
    rw [List.getD_cons_zero, blockFields_blockHeader]
    simp only [BlockFields.mk.injEq, decide_eq_decide]
    refine ⟨by omega, ?_, by omega, by omega, by simp, by omega, by omega⟩
    omega
  · rw [if_neg hshort] at hi ⊢
    cases i with
    | zero =>
        have hmore := length_messageBlocks rbit head systemBytes (message.drop 244) (blockNum + 1)
        rw [List.getD_cons_zero, blockFields_blockHeader]
        simp only [BlockFields.mk.injEq, decide_eq_decide, List.length_cons, Bool.false_eq_true,
          false_or]
        refine ⟨by omega, ?_, by omega, by omega, ?_, by omega, by omega⟩
        · omega
        · omega
    | succ i =>
        rw [List.length_cons] at hi
        have hrest := ih (message.drop 244).length (by rw [List.length_drop]; omega)
          (message.drop 244) (blockNum + 1) i (by omega) (by omega) rfl
        rw [List.getD_cons_succ, hrest, List.length_cons]
        simp only [BlockFields.mk.injEq, decide_eq_decide, true_and]
        refine ⟨by omega, by omega, trivial⟩

/-- The loop's way to cut a message is right as long as the block numbers last. -/
theorem messageBlocks_splits (hhead : head.Fits) (hsystem : systemBytes < 2 ^ 32)
    {message : Bytes} (hlen : message.length < 244 * 32767) :
    Splits (messageBlocks rbit head systemBytes message 1) head systemBytes message := by
  have hcount := length_messageBlocks rbit head systemBytes message 1
  refine ⟨hcount, fun i hi => ?_, messageBlocks_bodies_fit rbit head systemBytes message 1,
    messageBlocks_bodies rbit head systemBytes message 1⟩
  rw [messageBlocks_fields rbit head systemBytes hhead hsystem message 1 i hi (by omega)]
  simp only [BlockFields.mk.injEq, true_and, and_true]
  omega

end

end ScOpen
