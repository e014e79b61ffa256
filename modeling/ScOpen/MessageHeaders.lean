import ScOpen.Hsms
import ScOpen.SystemBytes
import ScOpen.SendSecsRight

/-!
# Message headers

A message's stream, function, device id, wait bit and system bytes are put into a header by the
station that sends it, on both transports, and taken out of it by the station that receives it. The
header has seven bits for the stream, eight for the function and fifteen for the device id. Nothing
looks whether the values have room there.
-/

namespace ScOpen

/-! ## Received headers -/

/-- What `recv_hsms()` and `recv_secs()` take out of a header, besides the system bytes. -/
def recvHead (header : MessageHeader) : MessageHead where
  stream := headerByte header.val 2 &&& 0x7F
  function := headerByte header.val 3
  deviceId := (headerByte header.val 0 &&& 0x7F) * 256 + headerByte header.val 1
  waitBit := if headerByte header.val 2 &&& 0x80 ≠ 0 then 1 else 0

structure Carries (proto : SecsProtocol) (header : MessageHeader) (head : MessageHead)
    (systemBytes : ℕ) : Prop where
  head : recvHead header = head
  systemBytes : recvSystemBytes proto header = systemBytes

/-- The fields of a header are read as they were written, when they have room. -/
theorem recvHead_blockHeader {rbit : Bool} {header : MessageHeader} {head : MessageHead}
    {systemBytes blockNum : ℕ} {last : Bool} (hhead : head.Fits) (hwait : head.waitBit ≤ 1)
    (h : header.val = blockHeader rbit head systemBytes blockNum last) :
    recvHead header = head := by
  obtain ⟨hstream, hfunction, hdevice⟩ := hhead
  have hread := blockFields_blockHeader rbit head systemBytes blockNum last []
  rw [List.append_nil, ← h] at hread
  simp only [blockFields, BlockFields.mk.injEq, decide_eq_decide] at hread
  obtain ⟨hdeviceId, hwaitBit, hstream', hfunction', -⟩ := hread
  have hlow : ¬ 128 ≤ head.stream % 256 := by omega
  rw [or_iff_left hlow] at hwaitBit
  have hwaitBit' : (if headerByte header.val 2 &&& 0x80 ≠ 0 then 1 else 0) = head.waitBit := by
    by_cases hzero : head.waitBit = 0
    · rw [if_neg fun hset => hwaitBit.1 hset hzero, hzero]
    · rw [if_pos (hwaitBit.2 hzero)]
      omega
  rw [recvHead, hwaitBit', hdeviceId, hstream', hfunction', Nat.mod_eq_of_lt hstream,
    Nat.mod_eq_of_lt hfunction, Nat.mod_eq_of_lt hdevice]

theorem hsmsHeader_eq (head : MessageHead) (systemBytes : ℕ) :
    hsmsHeader head systemBytes = blockHeader false head systemBytes 0 false := by
  have hblock := systemBytesField_blockHeader false head systemBytes 0 false []
  rw [← systemBytesField_hsmsHeader head systemBytes []] at hblock
  have hfields : ∀ bytes : Bytes, bytes.length = 10 →
      bytes = bytes.take 6 ++ systemBytesField bytes := by
    intro bytes hlength
    have hrest : (bytes.drop 6).take 4 = bytes.drop 6 := by
      apply List.take_of_length_le
      rw [List.length_drop, hlength]
    rw [systemBytesField, hrest, List.take_append_drop]
  rw [List.append_nil, List.append_nil] at hblock
  rw [hfields (hsmsHeader head systemBytes) rfl,
    hfields (blockHeader false head systemBytes 0 false) rfl, hblock]
  rfl

/-- Whatever the transport and the block, the header that is sent carries values that have room. -/
theorem carries_of_fits (proto : SecsProtocol) {header : MessageHeader} {head : MessageHead}
    {systemBytes : UInt32} {rbit : Bool} {blockNum : ℕ} {last : Bool} (hhead : head.Fits)
    (hwait : head.waitBit ≤ 1)
    (h : header.val = blockHeader rbit head systemBytes.toNat blockNum last) :
    Carries proto header head systemBytes.toNat := by
  refine ⟨recvHead_blockHeader hhead hwait h, ?_⟩
  have hfield := systemBytesField_blockHeader rbit head systemBytes.toNat blockNum last []
  rw [List.append_nil, ← h] at hfield
  rw [recvSystemBytes_eq, hfield, beValue_beBytes_of_lt systemBytes.toNat_lt]

/-! ## Messages that are sent -/

section

variable {σ : Type} (cmds : EncodeCommands σ) (scan : FloatScan) (fl : FloatText) (garbage : ℕ)
  (systemBytes : UInt32) (p : Program σ)

/-- What `send_hsmsII()` writes; `none` when the message cannot be encoded. -/
def hsmsWrites (systemBytes : ℕ) (encoded : EncodeResult σ) : Option (List Bytes) :=
  if encoded.iret ≠ 0 then none
  else some (sendHsmsI (hsmsHeader encoded.head systemBytes) encoded.buffer)

def streamHeader (writes : List Bytes) : Bytes := (writes.flatten.drop 4).take 10

/-- Every header that is sent gives back the values of the send command, and nothing is sent when
they have no room in a header. -/
structure HeaderRight (encoded : EncodeResult σ) : Prop where
  hsms : ∀ writes, hsmsWrites systemBytes.toNat encoded = some writes →
    ∀ header : MessageHeader, header.val = streamHeader writes →
      Carries .hsms header encoded.head systemBytes.toNat
  secs : ∀ opts line r, SendsTo cmds scan fl opts garbage systemBytes p line r →
    ∀ b ∈ r.line.blocks, b ∈ line.blocks ∨
      ∀ header : MessageHeader, header.val = b.take 10 →
        Carries .secs header encoded.head systemBytes.toNat
  rejected : ¬ encoded.head.Fits → hsmsWrites systemBytes.toNat encoded = none ∧
    ∀ opts line r, SendsTo cmds scan fl opts garbage systemBytes p line r →
      r.line.blocks = line.blocks ∧ r.iret ≠ 0

variable {cmds scan fl garbage systemBytes p}

theorem streamHeader_sendHsmsI (head : MessageHead) (systemBytes : ℕ) (body : Bytes) :
    streamHeader (sendHsmsI (hsmsHeader head systemBytes) body) = hsmsHeader head systemBytes := by
  have hlength : (swap (leBytes 4 ((10 + body.length) % 2 ^ 32))).length = 4 := by
    rw [swap_leBytes, length_beBytes]
  have hten : (hsmsHeader head systemBytes).length = 10 := rfl
  rw [streamHeader, sendHsmsI, List.flatten_cons, List.append_assoc, List.drop_left' hlength,
    List.take_left' hten]

/-- A head that is parsed has a wait bit of 0 or 1. -/
theorem encodeHead_waitBit {head : MessageHead} (hwait : head.waitBit ≤ 1) (p : Program σ) :
    (encodeHead cmds head p).2.1.waitBit ≤ 1 := by
  have hnumbers : (encodeNumbers cmds head p).2.1.waitBit = head.waitBit := by
    simp only [encodeNumbers]
    split
    · rfl
    · split <;> rfl
  have hbit : ∀ (head : MessageHead) (p : Program σ), (encodeWaitBit cmds head p).1.waitBit ≤ 1 := by
    intro head p
    simp only [encodeWaitBit]
    split
    · exact le_rfl
    · exact Nat.zero_le _
  simp only [encodeHead]
  split
  · rw [hnumbers]
    exact hwait
  · exact hbit _ _

/-- Over a line that answers, every message is sent, whatever its values are. -/
theorem sendsTo_acknowledgingLine {encoded : EncodeResult σ}
    (hencoded : EncodesTo cmds scan fl p encoded) :
    ∃ r, SendsTo cmds scan fl ⟨false, 0⟩ garbage systemBytes p (acknowledgingLine 1) r ∧
      r.line.blocks = [onlyBlock ⟨false, 0⟩ garbage systemBytes encoded] := by
  obtain ⟨line', hrun, hblocks⟩ := sendBlock_acknowledgingLine ⟨false, 0⟩
    (onlyBlock ⟨false, 0⟩ garbage systemBytes encoded) one_pos
  exact ⟨_, (sendsTo_iff hencoded _ _).2 ⟨0, line', hrun, rfl⟩, hblocks⟩

end

/-- The values of a send command come out of every header that is sent for it exactly when each of
them has room in its field; no others are rejected. -/
theorem header_right_iff {σ : Type} (cmds : EncodeCommands σ) (scan : FloatScan) (fl : FloatText)
    (garbage : ℕ) (systemBytes : UInt32) (p : Program σ) (encoded : EncodeResult σ)
    (hencoded : EncodesTo cmds scan fl p encoded) :
    HeaderRight cmds scan fl garbage systemBytes p encoded ↔ encoded.head.Fits := by
  constructor
  · intro hright
    by_contra hfits
    obtain ⟨r, hsends, hblocks⟩ := sendsTo_acknowledgingLine hencoded
    have hnone := ((hright.rejected hfits).2 _ _ r hsends).1
    rw [hblocks] at hnone
    cases hnone
  · intro hfits
    have hwait : encoded.head.waitBit ≤ 1 := by
      rw [hencoded.head_eq]
      exact encodeHead_waitBit (Nat.zero_le _) p
    refine ⟨fun writes hwrites header hheader => ?_, fun opts line r hsends b hb => ?_,
      fun hnot => (hnot hfits).elim⟩
    · rw [hsmsWrites] at hwrites
      split at hwrites
      · cases hwrites
      · cases hwrites
        rw [streamHeader_sendHsmsI, hsmsHeader_eq] at hheader
        exact carries_of_fits .hsms hfits hwait hheader
    · obtain ⟨iret, line', hrun, rfl⟩ := (sendsTo_iff hencoded line r).1 hsends
      have hblocks := sendBlock_blocks opts (onlyBlock opts garbage systemBytes encoded)
        opts.attempts line b
      rw [hrun] at hblocks
      refine (hblocks hb).imp_right ?_
      rintro rfl header hheader
      exact carries_of_fits .secs hfits hwait hheader

/-! ## Two send commands -/

def emptyMessage (streamFunction : Bytes) : Program Unit :=
  ⟨[word streamFunction, word (cstr "0"), mark .period period_hasText], 0, 0, ()⟩

theorem emptyMessage_encodesTo {stream function : Bytes} (hstream : stream ≠ [])
    (hstream' : ∀ c ∈ stream, IsDigit c) (hfunction : function ≠ [])
    (hfunction' : ∀ c ∈ function, IsDigit c) :
    ∃ encoded, EncodesTo noCommands noScan noFloats
      (emptyMessage (chr 'S' :: (stream ++ chr 'F' :: function))) encoded := by
  have hp : Presents (emptyMessage (chr 'S' :: (stream ++ chr 'F' :: function))) .done :=
    ⟨_, [], _, [], rfl, .plain ⟨isWord_word _, isWord_word _,
      ⟨stream, function, rfl, hstream, hstream', hfunction, hfunction'⟩,
      numberTokens_s1f1.dev_text⟩, .done, rfl⟩
  obtain ⟨k, head', p', hitems⟩ := encodeItems_presents noCommands noScan hp ⟨0, 0, 0, 0⟩
  have hroom : LogRoom [] := by
    refine ⟨by decide, ?_⟩
    rw [walk_nil]
    exact ⟨trivial, by decide⟩
  obtain ⟨k', encoded, hrun, -⟩ := (secsEncode_returns_iff noCommands noScan noFloats hitems
    fun _ _ => True).2 ⟨hroom, trivial⟩
  exact ⟨encoded, k', hrun⟩

/-- `S129F1` is accepted and sent with a header that says `S1F1` and asks for a reply. -/
theorem header_not_always_right :
    ¬ ∀ {σ : Type} (cmds : EncodeCommands σ) (scan : FloatScan) (fl : FloatText) (garbage : ℕ)
      (systemBytes : UInt32) (p : Program σ) (encoded : EncodeResult σ),
      EncodesTo cmds scan fl p encoded →
      HeaderRight cmds scan fl garbage systemBytes p encoded := by
  intro hall
  obtain ⟨encoded, hencoded⟩ := @emptyMessage_encodesTo (cstr "129") (cstr "1")
    (cstr_ne_nil (List.cons_ne_nil _ _)) (isDigit_of_all rfl)
    (cstr_ne_nil (List.cons_ne_nil _ _)) (isDigit_of_all rfl)
  have hright := hall noCommands noScan noFloats 0 1 _ encoded hencoded
  obtain ⟨r, hsends, hblocks⟩ := sendsTo_acknowledgingLine hencoded
  have hhead : encoded.head = ⟨129, 1, 0, 0⟩ := hencoded.head_eq
  have hfits : ¬ encoded.head.Fits := by
    rw [hhead]
    exact fun h => absurd h.1 (by decide)
  have hnone := ((hright.rejected hfits).2 _ _ r hsends).1
  rw [hblocks] at hnone
  cases hnone

/-- The header of `S1F1`. -/
theorem header_right_iff_s1f1 :
    ∃ encoded, EncodesTo noCommands noScan noFloats (emptyMessage (cstr "S1F1")) encoded ∧
      HeaderRight noCommands noScan noFloats 0 1 (emptyMessage (cstr "S1F1")) encoded := by
  obtain ⟨encoded, hencoded⟩ := @emptyMessage_encodesTo (cstr "1") (cstr "1")
    (cstr_ne_nil (List.cons_ne_nil _ _)) (isDigit_of_all rfl)
    (cstr_ne_nil (List.cons_ne_nil _ _)) (isDigit_of_all rfl)
  have hhead : encoded.head = ⟨1, 1, 0, 0⟩ := hencoded.head_eq
  have hfits : encoded.head.Fits := by
    rw [hhead]
    exact ⟨by decide, by decide, by decide⟩
  exact ⟨encoded, hencoded,
    (header_right_iff noCommands noScan noFloats 0 1 _ encoded hencoded).2 hfits⟩

end ScOpen
