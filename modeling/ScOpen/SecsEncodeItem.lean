import ScOpen.SecsEncode
import ScOpen.Sml

/-!
# Encoding the values of one item

The loop over an item's tokens adds, for each written value, the bytes that the conversion makes
of it. Numbers are converted in a 64-bit accumulator (unsigned types) or in an `int` (signed
types) and then cut to the width of the type, so the bytes are those of the number that is left
(`Decimal.stored`).
-/

namespace ScOpen

/-! ## Tokens of a program -/

section

variable {σ : Type} (evaluateToken : Bytes → σ → Bytes × σ)

theorem getProgramToken_eq {p : Program σ} {t : Token} {ts : List Token}
    (hp : p.tokens.drop p.programIdx = t :: ts) (ht : t.type ≠ .variable_) :
    getProgramToken evaluateToken p =
      (t.type, t.text, ⟨p.tokens, p.programIdx + 1, p.programIdx, p.env⟩) := by
  have hget : p.tokens[p.programIdx]? = some t := by
    have h := congrArg (fun l => l[0]?) hp
    simpa using h
  simp only [getProgramToken, hget, ht, if_false]

theorem drop_succ_of_cons {α : Type} {l : List α} {i : ℕ} {t : α} {ts : List α}
    (h : l.drop i = t :: ts) : l.drop (i + 1) = ts := by
  rw [← List.drop_drop, h, List.drop_succ_cons, List.drop_zero]

theorem drop_add_of_append {α : Type} {l : List α} {i : ℕ} {ts us : List α}
    (h : l.drop i = ts ++ us) : l.drop (i + ts.length) = us := by
  rw [← List.drop_drop, h, List.drop_left]

theorem Token.IsWord.ne_variable {w : Token} (hw : w.IsWord) : w.type ≠ .variable_ := by
  rcases hw with h | h | h | h <;> simp [h]

theorem Token.IsWord.ne_greaterThan {w : Token} (hw : w.IsWord) : w.type ≠ .greaterThan := by
  rcases hw with h | h | h | h <;> simp [h]

theorem Token.IsWord.ne_minus {w : Token} (hw : w.IsWord) : w.type ≠ .minus := by
  rcases hw with h | h | h | h <;> simp [h]

end

/-! ## The loop over the tokens of an item -/

inductive Feeds (minus : Bool) (convert : Bytes → Converted) : List Token → Bytes → Bool → Prop where
  | nil : Feeds minus convert [] [] false
  | one {w : Token} {ws : List Token} {data data' : Bytes} {err err' : Bool}
      (hvar : w.type ≠ .variable_) (hgt : w.type ≠ .greaterThan)
      (hminus : minus = true → w.type ≠ .minus)
      (hconvert : convert w.text = ⟨data, data.length, err, false⟩)
      (hnext : Feeds minus convert ws data' err') :
      Feeds minus convert (w :: ws) (data ++ data') (err || err')
  | signed {m w : Token} {ws : List Token} {data data' : Bytes} {err err' : Bool}
      (hminus : minus = true) (hm : m.type = .minus) (hvar : w.type ≠ .variable_)
      (hconvert : convert (chr '-' :: cString w.text) = ⟨data, data.length, err, false⟩)
      (hnext : Feeds minus convert ws data' err') :
      Feeds minus convert (m :: w :: ws) (data ++ data') (err || err')

section

variable {σ : Type} (cmds : EncodeCommands σ)

theorem itemLoop_feeds {minus : Bool} {convert : Bytes → Converted} {ws us : List Token}
    {gt : Token} {data : Bytes} {err : Bool} (hfeeds : Feeds minus convert ws data err)
    (hgt : gt.type = .greaterThan) (fuel : ℕ) (hfuel : ws.length < fuel) (p : Program σ)
    (d : ItemData) (hd : d.numBytes < 2 ^ 32)
    (hp : p.tokens.drop p.programIdx = ws ++ gt :: us) :
    itemLoop cmds minus convert fuel p d = some
      (⟨d.data ++ data, (d.numBytes + data.length) % 2 ^ 32, if err then 1 else d.iret⟩,
        ⟨p.tokens, p.programIdx + ws.length, p.programIdx + ws.length, p.env⟩) := by
  induction hfeeds generalizing fuel p d with
  | nil =>
      obtain ⟨fuel, rfl⟩ := Nat.exists_eq_succ_of_ne_zero (Nat.ne_zero_of_lt hfuel)
      have hget := getProgramToken_eq cmds.evaluateToken hp (by simp [hgt])
      simp only [itemLoop, hget, hgt, if_true, putProgramToken, List.append_nil, List.length_nil,
        Nat.add_zero, Nat.mod_eq_of_lt hd, Bool.false_eq_true, if_false]
  | @one w ws data data' err err' hvar hwgt hminus hconvert _ ih =>
      obtain ⟨fuel, rfl⟩ := Nat.exists_eq_succ_of_ne_zero (Nat.ne_zero_of_lt hfuel)
      have hget := getProgramToken_eq cmds.evaluateToken hp hvar
      have hnot : ¬ (minus = true ∧ w.type = .minus) := fun h => hminus h.1 h.2
      have hrun := ih fuel (by simpa using hfuel)
        ⟨p.tokens, p.programIdx + 1, p.programIdx, p.env⟩
        ⟨d.data ++ data, (d.numBytes + data.length) % 2 ^ 32, if err then 1 else d.iret⟩
        (Nat.mod_lt _ (by decide)) (drop_succ_of_cons hp)
      simp only [itemLoop, hget, hwgt, hnot, if_false, hconvert, Bool.false_eq_true]
      rw [hrun]
      simp only [Nat.mod_add_mod, List.append_assoc, List.length_append, List.length_cons,
        Nat.add_assoc, Nat.add_comm 1, Bool.or_eq_true]
      cases err <;> cases err' <;> simp
  | @signed m w ws data data' err err' hminus hm hvar hconvert _ ih =>
      obtain ⟨fuel, rfl⟩ := Nat.exists_eq_succ_of_ne_zero (Nat.ne_zero_of_lt hfuel)
      have hget := getProgramToken_eq cmds.evaluateToken hp (by simp [hm])
      have hp' := drop_succ_of_cons hp
      have hget' := getProgramToken_eq cmds.evaluateToken
        (p := ⟨p.tokens, p.programIdx + 1, p.programIdx, p.env⟩) hp' hvar
      have hfuel' : ws.length < fuel := by
        simp only [List.length_cons] at hfuel
        omega
      have hrun := ih fuel hfuel'
        ⟨p.tokens, p.programIdx + 1 + 1, p.programIdx + 1, p.env⟩
        ⟨d.data ++ data, (d.numBytes + data.length) % 2 ^ 32, if err then 1 else d.iret⟩
        (Nat.mod_lt _ (by decide)) (drop_succ_of_cons hp')
      have hmgt : ¬ (TokenType.minus = TokenType.greaterThan) := by decide
      simp only [itemLoop, hget, hm, hmgt, hminus, if_false, and_self, if_true, hget', hconvert,
        Bool.false_eq_true]
      rw [hminus] at hrun
      rw [hrun]
      simp only [Nat.mod_add_mod, List.append_assoc, List.length_append, List.length_cons,
        Nat.add_assoc, Nat.add_comm 1, Bool.or_eq_true]
      cases err <;> cases err' <;> simp

end

/-! ## The values of the item types -/

theorem valuesLoop_stop (convert : Bytes → Bytes × ℤ) (p : Bytes) :
    (valuesLoop convert p).stop = false := by
  fun_induction valuesLoop convert p with
  | case1 => rfl
  | case2 => rfl
  | case3 p _ data cnt _ _ rest ih => exact ih

theorem floatsLoop_stop (scan : FloatScan) (width : ℕ) (convert : Bytes → Option Bytes)
    (p : Bytes) : (floatsLoop scan width convert p).stop = false := by
  fun_induction floatsLoop scan width convert p with
  | case1 => rfl
  | case2 => rfl
  | case3 => assumption
  | case4 => rfl

theorem valuesLoop_one {convert : Bytes → Bytes × ℤ} {p : Bytes} (hne : p ≠ [])
    (hcnt : (convert p).2 = p.length) :
    valuesLoop convert p = ⟨(convert p).1, (convert p).1.length, false, false⟩ := by
  have hpos : 0 < p.length := List.length_pos_of_ne_nil hne
  have hdrop : p.drop (convert p).2.toNat = [] := by
    rw [hcnt, Int.toNat_natCast, List.drop_length]
  have hnil : valuesLoop convert [] = ⟨[], 0, false, false⟩ := by
    rw [valuesLoop, if_pos rfl]
  have hcnt' : ¬ (convert p).2 ≤ 0 := by
    rw [hcnt]
    omega
  rw [valuesLoop, if_neg hne]
  simp only [hcnt', if_false, hdrop, hnil, List.append_nil, Nat.add_zero]

theorem valuesLoop_error {convert : Bytes → Bytes × ℤ} {p : Bytes} (hne : p ≠ [])
    (hcnt : (convert p).2 = -1) : valuesLoop convert p = ⟨[], 0, true, false⟩ := by
  rw [valuesLoop, if_neg hne]
  simp only [hcnt]
  rfl

/-- The number that is left of a written one when it has gone through the accumulator. -/
def Decimal.stored (t : IntegerType) (d : Decimal) : ℤ :=
  if t.signed then Int.bmod d.value (2 ^ 32) else (decimalValue d.digits % 2 ^ 64 : ℕ)

def Decimal.rejected (t : IntegerType) (d : Decimal) : Bool := !t.signed && d.sign = .text

def Decimal.storedBytes (t : IntegerType) (d : Decimal) : Bytes :=
  if d.rejected t then [] else integerBytes t.width (d.stored t)

def IntegerType.convert (t : IntegerType) : Bytes → Converted :=
  if t.signed then convertSigned t.width else convertUnsigned t.width

theorem integerBytes_natCast (width n : ℕ) : integerBytes width n = beBytes width n := by
  have hmod : ((n : ℤ) % 256 ^ width).toNat = n % 256 ^ width := by
    have hcast : (n : ℤ) % 256 ^ width = ((n % 256 ^ width : ℕ) : ℤ) := by push_cast; rfl
    rw [hcast, Int.toNat_natCast]
  rw [integerBytes, hmod, beBytes_mod]

theorem cString_digits (d : Decimal) : cString d.digits = d.digits :=
  cString_eq_self (zero_notMem_digits d.all_digits)

theorem cString_minus_digits (d : Decimal) :
    cString (chr '-' :: d.digits) = chr '-' :: d.digits := by
  apply cString_eq_self
  intro h
  rcases List.mem_cons.1 h with h | h
  · exact absurd h (by decide)
  · exact zero_notMem_digits d.all_digits h

theorem convertUnsigned_digits (width : ℕ) (d : Decimal) :
    convertUnsigned width d.digits =
      ⟨integerBytes width (decimalValue d.digits % 2 ^ 64 : ℕ), width, false, false⟩ := by
  rw [convertUnsigned, cString_digits,
    valuesLoop_one d.digits_ne (by rw [myAtou_digits d.digits_ne d.all_digits])]
  simp only [myAtou_digits d.digits_ne d.all_digits, swap_leBytes, length_beBytes,
    integerBytes_natCast]

theorem convertUnsigned_minus (width : ℕ) (d : Decimal) :
    convertUnsigned width (chr '-' :: d.digits) = ⟨[], 0, true, false⟩ := by
  rw [convertUnsigned, cString_minus_digits]
  exact valuesLoop_error (by simp) (myAtou_minus d.digits)

theorem convertSigned_digits (width : ℕ) (d : Decimal) :
    convertSigned width d.digits =
      ⟨integerBytes width (Int.bmod (decimalValue d.digits) (2 ^ 32)), width, false, false⟩ := by
  rw [convertSigned, cString_digits,
    valuesLoop_one d.digits_ne (by rw [myAtoi_digits d.digits_ne d.all_digits])]
  simp only [myAtoi_digits d.digits_ne d.all_digits, swap_leBytes, length_beBytes, integerBytes]

theorem convertSigned_minus (width : ℕ) (d : Decimal) :
    convertSigned width (chr '-' :: d.digits) =
      ⟨integerBytes width (Int.bmod (-(decimalValue d.digits : ℤ)) (2 ^ 32)), width, false,
        false⟩ := by
  rw [convertSigned, cString_minus_digits, valuesLoop_one (by simp)
    (by rw [myAtoi_minus_digits d.digits_ne d.all_digits, List.length_cons])]
  simp only [myAtoi_minus_digits d.digits_ne d.all_digits, swap_leBytes, length_beBytes,
    integerBytes]

theorem feeds_decimals {t : IntegerType} {vs : List Decimal} {ws : List Token}
    (hws : DecimalTokens vs ws) :
    Feeds t.signed t.convert ws (vs.flatMap (·.storedBytes t)) (vs.any (·.rejected t)) := by
  induction hws with
  | nil => exact .nil
  | @plain d ds w ws hsign hw htext _ ih =>
      refine .one hw.ne_variable hw.ne_greaterThan (fun _ => hw.ne_minus) ?_ ih
      rw [htext]
      cases ht : t.signed with
      | true => simp [IntegerType.convert, ht, convertSigned_digits, Decimal.storedBytes,
          Decimal.rejected, Decimal.stored, Decimal.value, hsign]
      | false => simp [IntegerType.convert, ht, convertUnsigned_digits, Decimal.storedBytes,
          Decimal.rejected, Decimal.stored, hsign]
  | @minusToken d ds m w ws hsign hm hw htext _ ih =>
      cases ht : t.signed with
      | true =>
          rw [ht] at ih
          refine .signed rfl hm hw.ne_variable ?_ ih
          rw [htext, cString_digits]
          simp [IntegerType.convert, ht, convertSigned_minus, Decimal.storedBytes,
            Decimal.rejected, Decimal.stored, Decimal.value, hsign]
      | false =>
          rw [ht] at ih
          have htail : Feeds false t.convert (w :: ws) (d.storedBytes t ++
              ds.flatMap (·.storedBytes t)) (d.rejected t || ds.any (·.rejected t)) := by
            refine .one hw.ne_variable hw.ne_greaterThan nofun ?_ ih
            rw [htext]
            simp [IntegerType.convert, ht, convertUnsigned_digits, Decimal.storedBytes,
              Decimal.rejected, Decimal.stored, hsign]
          have hempty : t.convert m.text = ⟨[], 0, false, false⟩ := by
            rw [m.text_of_type (by rw [hm]; rfl)]
            simp [IntegerType.convert, ht, convertUnsigned, cString, valuesLoop]
          have hall := Feeds.one (by simp [hm]) (by simp [hm]) (by simp) hempty htail
          exact hall
  | @minusText d ds w ws hsign hw htext _ ih =>
      refine .one hw.ne_variable hw.ne_greaterThan (fun _ => hw.ne_minus) ?_ ih
      rw [htext]
      cases ht : t.signed with
      | true => simp [IntegerType.convert, ht, convertSigned_minus, Decimal.storedBytes,
          Decimal.rejected, Decimal.stored, Decimal.value, hsign]
      | false => simp [IntegerType.convert, ht, convertUnsigned_minus, Decimal.storedBytes,
          Decimal.rejected, hsign]

theorem Feeds.word {convert : Bytes → Converted} {w : Token} {ws : List Token}
    {data data' : Bytes} (hw : w.IsWord)
    (hconvert : convert w.text = ⟨data, data.length, false, false⟩)
    (hnext : Feeds false convert ws data' false) :
    Feeds false convert (w :: ws) (data ++ data') false := by
  have h := Feeds.one hw.ne_variable hw.ne_greaterThan (by simp) hconvert hnext
  exact h

theorem feeds_ascii {ws : List Token} (hws : ∀ w ∈ ws, w.IsWord) :
    Feeds false convertAscii ws (ws.flatMap (·.text)) false := by
  induction ws with
  | nil => exact .nil
  | cons w ws ih =>
      exact Feeds.word (hws w (by simp)) rfl (ih fun w' hw' => hws w' (by simp [hw']))

theorem hexValue?_hexDigit {a : ℕ} (ha : a < 16) : hexValue? (hexDigit a) = some a := by
  revert a
  decide

theorem ne_of_hexDigit {a : ℕ} (ha : a < 16) : hexDigit a ≠ 0 ∧ hexDigit a ≠ chr ' ' := by
  revert a
  decide

theorem convertBinary_hexText {b : UInt8} {text : Bytes} (h : HexText b text) :
    convertBinary text = ⟨[b], 1, false, false⟩ := by
  cases h with
  | @one a ha =>
      obtain ⟨hzero, hblank⟩ := ne_of_hexDigit ha
      have hbyte : myAtobyte [hexDigit a] = (a, 1) := by
        have hmod : a % 256 = a := Nat.mod_eq_of_lt (by omega)
        simp [myAtobyte, takeWhile_blank hblank, dropWhile_blank hblank, atobyteLoop,
          hexValue?_hexDigit ha, hmod, usedCount]
      have htext : cString [hexDigit a] = [hexDigit a] :=
        cString_eq_self (by simpa using hzero.symm)
      rw [convertBinary, htext, valuesLoop_one (by simp) (by simp [hbyte])]
      simp [hbyte]
  | @two a b ha hb =>
      obtain ⟨hzero, hblank⟩ := ne_of_hexDigit ha
      obtain ⟨hzero', -⟩ := ne_of_hexDigit hb
      have hbyte : myAtobyte [hexDigit a, hexDigit b] = (a * 16 + b, 2) := by
        have hmod : a % 256 = a := Nat.mod_eq_of_lt (by omega)
        have hmod' : (a * 16 + b) % 256 = a * 16 + b := Nat.mod_eq_of_lt (by omega)
        simp [myAtobyte, takeWhile_blank hblank, dropWhile_blank hblank, atobyteLoop,
          hexValue?_hexDigit ha, hexValue?_hexDigit hb, hmod, hmod', usedCount]
      have htext : cString [hexDigit a, hexDigit b] = [hexDigit a, hexDigit b] :=
        cString_eq_self (by simpa using ⟨hzero.symm, hzero'.symm⟩)
      rw [convertBinary, htext, valuesLoop_one (by simp) (by simp [hbyte])]
      simp [hbyte]

theorem feeds_binary {bytes : Bytes} {ws : List Token}
    (hws : List.Forall₂ (fun b w => w.IsWord ∧ HexText b w.text) bytes ws) :
    Feeds false convertBinary ws bytes false := by
  induction hws with
  | nil => exact .nil
  | @cons b w bytes ws hw _ ih =>
      exact Feeds.word hw.1 (convertBinary_hexText hw.2) ih

theorem convertBoolean_text {b : Bool} {text : Bytes} (h : BooleanText b text) :
    convertBoolean text = ⟨[if b then 1 else 0], 1, false, false⟩ := by
  cases b with
  | true =>
      have htrue : firstByte text = chr 'T' ∨ firstByte text = chr '1' := h
      rw [convertBoolean, if_pos htrue]
      rfl
  | false =>
      have hfalse : firstByte text = chr 'F' ∨ firstByte text = chr '0' := h
      have hnot : ¬ (firstByte text = chr 'T' ∨ firstByte text = chr '1') := by
        rcases hfalse with h | h <;> rw [h] <;> decide
      rw [convertBoolean, if_neg hnot, if_pos hfalse]
      rfl

theorem feeds_boolean {bs : List Bool} {ws : List Token}
    (hws : List.Forall₂ (fun b w => w.IsWord ∧ BooleanText b w.text) bs ws) :
    Feeds false convertBoolean ws (bs.map fun b => if b then 1 else 0) false := by
  induction hws with
  | nil => exact .nil
  | @cons b w bs ws hw _ ih =>
      exact Feeds.word hw.1 (convertBoolean_text hw.2) ih

/-! ## The items -/

def Leaf.minus : Leaf → Bool
  | .integers t _ => t.signed
  | _ => false

def Leaf.convert : Leaf → Bytes → Converted
  | .ascii _ => convertAscii
  | .binary _ => convertBinary
  | .boolean _ => convertBoolean
  | .integers t _ => t.convert

def Leaf.storedData : Leaf → Bytes
  | .integers t vs => vs.flatMap (·.storedBytes t)
  | v => v.data

def Leaf.rejected : Leaf → Bool
  | .integers t vs => vs.any (·.rejected t)
  | _ => false

theorem feeds_leaf {v : Leaf} {ws : List Token} (hws : LeafTokens v ws) :
    Feeds v.minus v.convert ws v.storedData v.rejected := by
  cases hws with
  | ascii hws => exact feeds_ascii hws
  | binary hws => exact feeds_binary hws
  | boolean hws => exact feeds_boolean hws
  | integers hws => exact feeds_decimals hws

theorem branchOf_word (scan : FloatScan) (v : Leaf) :
    branchOf scan v.secsType.word = .item v.secsType v.minus v.convert := by
  cases v with
  | ascii text => rfl
  | binary bytes => rfl
  | boolean bs => rfl
  | integers t vs => cases t <;> rfl

end ScOpen
