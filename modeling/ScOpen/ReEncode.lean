import ScOpen.ArrayNames
import ScOpen.SecsDecodersAgree
import ScOpen.StoredText

/-!
# Sending a stored value back

A value stored without arrays is sent back as the value of one item of the same type. Only texts
always survive: numbers and binary items only when they have no elements, and booleans only when
they have exactly one.
-/

namespace ScOpen

section

variable {σ : Type} (cmds : EncodeCommands σ)

def PresentsValue (p : Program σ) (t : SecsType) (value : Bytes) : Prop :=
  ∃ hs lt w v gt period us env, p.tokens.drop p.programIdx =
      hs ++ (lt :: w :: v :: gt :: period :: us) ∧ HeadTokens hs ∧ lt.type = .lessThan ∧
    w.IsWord ∧ w.text = t.word ∧ v.type = .variable_ ∧
    cmds.evaluateToken v.text p.env = (variableText value, env) ∧ gt.type = .greaterThan ∧
    period.type = .period

variable (scan : FloatScan) (fl : FloatText)

/-- The loop over the tokens of an item with one variable, up to its `>`. -/
theorem itemLoop_value (minus : Bool) (convert : Bytes → Converted) (s : ℕ) {tokens : List Token}
    {v gt : Token} {us : List Token} {i : ℕ} {env env' : σ} {text : Bytes}
    (hp : tokens.drop i = v :: gt :: us) (hv : v.type = .variable_)
    (heval : cmds.evaluateToken v.text env = (text, env')) (hgt : gt.type = .greaterThan) :
    ∃ s', ∀ n, itemLoop cmds minus convert (n + 1 + 1) ⟨tokens, i, s, env⟩ ⟨[], 0, 0⟩ = some
      (⟨(convert text).data, (convert text).numBytes % 2 ^ 32,
          if (convert text).error then 1 else 0⟩,
        ⟨tokens, i + 1, s', env'⟩) := by
  have hget : getProgramToken cmds.evaluateToken ⟨tokens, i, s, env⟩ =
      (.variable_, text, ⟨tokens, i + 1, i, env'⟩) := by
    have htoken : tokens[i]? = some v := by
      have h := congrArg (fun l => l[0]?) hp
      simpa using h
    simp only [getProgramToken, htoken, hv, if_true, heval]
  have hget' := getProgramToken_eq cmds.evaluateToken (p := ⟨tokens, i + 1, i, env'⟩)
    (drop_succ_of_cons hp) (by simp [hgt])
  have hminus : ¬ (minus = true ∧ TokenType.variable_ = .minus) := by simp
  have hvar : ¬ (TokenType.variable_ = .greaterThan) := by decide
  cases hstop : (convert text).stop with
  | true =>
      refine ⟨i, fun n => ?_⟩
      simp only [itemLoop, hget, hvar, hminus, if_false, hstop, if_true, List.nil_append,
        Nat.zero_add]
  | false =>
      refine ⟨i + 1, fun n => ?_⟩
      simp only [itemLoop, hget, hvar, hminus, if_false, hstop, hget', hgt, if_true,
        putProgramToken, List.nil_append, Nat.zero_add, Bool.false_eq_true]

/-- The message that is sent: the item of what the text comes to. -/
theorem encodeItems_value {p : Program σ} {t : SecsType} {value : Bytes}
    (hp : PresentsValue cmds p t value) {minus : Bool} {convert : Bytes → Converted}
    (hbranch : branchOf scan t.word = .item t minus convert) (head : MessageHead) :
    ∃ k head' p', ∀ n, encodeItems cmds scan (n + k) head [] p = some (head',
      ⟨p', if (convert (variableText value)).error then 1 else 0,
        itemHeader t ((convert (variableText value)).numBytes % 2 ^ 32) ++
          (convert (variableText value)).data⟩) := by
  obtain ⟨tokens, i, s, env⟩ := p
  obtain ⟨hs, lt, w, v, gt, period, us, env', hdrop, hhead, hlt, hw, hword, hv, heval, hgt,
    hperiod⟩ := hp
  simp only at hdrop heval
  obtain ⟨head', s', hencode⟩ := encodeHead_tokens cmds tokens env hhead
    (lt.text_of_type (by rw [hlt]; rfl)) (by simp [hlt]) head i s hdrop
  have hp₀ := drop_add_of_append hdrop
  have hp₁ := drop_succ_of_cons hp₀
  have hp₂ := drop_succ_of_cons hp₁
  have hp₃ := drop_succ_of_cons hp₂
  have hbranch' : branchOf scan w.text = .item t minus convert := by rw [hword, hbranch]
  obtain ⟨s'', hitem⟩ := itemLoop_value cmds minus convert (i + hs.length + 1) hp₂ hv heval hgt
  have hloop : ∀ n,
      encodeLoop cmds scan (n + 1 + 1 + 1 + 1) ⟨⟨tokens, i + hs.length, s', env⟩, 0, []⟩ =
      encodeLoop cmds scan (n + 1 + 1)
        ⟨⟨tokens, i + hs.length + 1 + 1 + 1, s'', env'⟩,
          if (convert (variableText value)).error then 1 else 0,
          itemHeader t ((convert (variableText value)).numBytes % 2 ^ 32) ++
            (convert (variableText value)).data⟩ := by
    intro n
    rw [encodeLoop_skip cmds tokens env scan _ _ _ _ hp₀ (.inl hlt),
      encodeLoop_word cmds tokens env scan _ _ _ _ hp₁ hw hbranch', hitem]
    simp
  cases herror : (convert (variableText value)).error with
  | true =>
      refine ⟨1 + 1 + 1 + 1, head', ⟨tokens, i + hs.length + 1 + 1 + 1, s'', env'⟩, fun n => ?_⟩
      have hrun := hloop n
      rw [herror, if_pos rfl, encodeLoop_stops] at hrun
      simp only [encodeItems, hencode, ← Nat.add_assoc, hrun]
      rfl
  | false =>
      refine ⟨1 + 1 + 1 + 1, head',
        ⟨tokens, i + hs.length + 1 + 1 + 1 + 1 + 1, i + hs.length + 1 + 1 + 1 + 1, env'⟩,
        fun n => ?_⟩
      have hrun := hloop n
      have hzero : (if false = true then 1 else 0) = 0 := rfl
      rw [herror, hzero, encodeLoop_skip cmds tokens env' scan _ _ _ _ hp₃ (.inr (.inl hgt)),
        encodeLoop_period cmds tokens env' scan _ _ _ _ (drop_succ_of_cons hp₃) hperiod] at hrun
      simp only [encodeItems, hencode, ← Nat.add_assoc, hrun]
      rfl

end

/-! ## What comes back -/

/-- A well-formed item with data, of a type other than the floats; a text has no NUL in it. -/
structure StoredItem where
  type : SecsType
  lengthBytes : ℕ
  data : Bytes
  stores : type.StoresText
  lengthBytes_mem : lengthBytes ∈ [1, 2, 3]
  length_fits : data.length < 256 ^ lengthBytes
  holds : type.HoldsData data.length
  nul_free : type = .ascii → 0 ∉ data

def StoredItem.bytes (item : StoredItem) : Bytes :=
  headerBytes item.type item.lengthBytes item.data.length ++ item.data

/-- The items whose stored value comes back as the item: the length is written in as few bytes as
it needs, and it is a text without a byte `FF`, one canonical boolean, or has no elements. -/
def StoredItem.ComesBack (item : StoredItem) : Prop :=
  item.lengthBytes = minLengthBytes item.data.length ∧
    match item.type with
    | .ascii => 0xFF ∉ item.data
    | .elements .boolean => item.data = [0] ∨ item.data = [1]
    | _ => item.data = []

theorem headerBytes_append_inj {t : SecsType} {k n : ℕ} {data : Bytes} (hk : k ∈ [1, 2, 3])
    (hn : n < 2 ^ 24) (hdata : data.length < 256 ^ k) {data' : Bytes}
    (h : itemHeader t n ++ data' = headerBytes t k data.length ++ data) :
    n = data.length ∧ data' = data ∧ k = minLengthBytes data.length := by
  have hmin := minLengthBytes_mem n
  have hleft := takeHeader_headerBytes (t := t) hmin (lt_pow_minLengthBytes hn) data'
  have hright := takeHeader_headerBytes (t := t) hk hdata data
  have hheader : itemHeader t n = headerBytes t (minLengthBytes n) n := itemHeader_eq t n
  rw [hheader] at h
  rw [h, hright] at hleft
  simp only [Option.some.injEq, Prod.mk.injEq, Header.mk.injEq, true_and] at hleft
  obtain ⟨hlength, rfl⟩ := hleft
  refine ⟨hlength.symm, rfl, ?_⟩
  have hlen := congrArg List.length h
  simp only [List.length_append, headerBytes, List.length_cons, length_beBytes] at hlen
  rw [hlength]
  omega

theorem logRoom_item {t : SecsType} {k : ℕ} {data : Bytes} (hk : k ∈ [1, 2, 3])
    (hsize : data.length < 256 ^ k) (hdata : t.HoldsData data.length) :
    LogRoom (headerBytes t k data.length ++ data) := by
  have hthree : k = 1 ∨ k = 2 ∨ k = 3 := by simpa using hk
  have hh := takeHeader_headerBytes (t := t) hk hsize data
  have hown : t.ownBytes data.length = data.length := by
    rcases t with _ | _ | t
    · exact hdata.elim
    · rfl
    · exact Nat.mul_div_cancel' hdata
  have hwalk : walk (headerBytes t k data.length ++ data) =
      ([⟨t.code, data.length⟩], .finished) := by
    rw [walk_some hh]
    simp only [secsType?_code, hown, le_refl, if_true, List.drop_length, walk_nil]
  refine ⟨?_, ?_⟩
  · simp only [headerBytes, List.length_append, List.length_cons, length_beBytes]
    rcases hthree with rfl | rfl | rfl <;> omega
  · rw [hwalk]
    exact ⟨⟨by simp [padColumn, logPadSize], fun _ _ => trivial⟩, by simp⟩

section

variable {σ : Type} (cmds : EncodeCommands σ) (scan : FloatScan) (fl : FloatText)

/-- What is sent is the item when the text is accepted and comes to the item's data. -/
theorem encodes_value_iff {p : Program σ} {t : SecsType} {k : ℕ} {value data : Bytes}
    (hp : PresentsValue cmds p t value) {minus : Bool} {convert : Bytes → Converted}
    (hbranch : branchOf scan t.word = .item t minus convert) (head : MessageHead)
    (hk : k ∈ [1, 2, 3]) (hsize : data.length < 256 ^ k) (hdata : t.HoldsData data.length) :
    Encodes cmds scan fl head p (headerBytes t k data.length ++ data) ↔
      (convert (variableText value)).error = false ∧
        itemHeader t ((convert (variableText value)).numBytes % 2 ^ 32) ++
          (convert (variableText value)).data = headerBytes t k data.length ++ data := by
  obtain ⟨n, head', p', hitems⟩ := encodeItems_value cmds scan hp hbranch head
  have hreturns := secsEncode_returns_iff cmds scan fl hitems fun iret b =>
    iret = 0 ∧ b = headerBytes t k data.length ++ data
  rw [Encodes, hreturns]
  have hstatus : (if (convert (variableText value)).error = true then 1 else 0) = 0 ↔
      (convert (variableText value)).error = false := by
    cases (convert (variableText value)).error <;> simp
  rw [hstatus]
  constructor
  · exact fun h => h.2
  · rintro ⟨herror, hbytes⟩
    refine ⟨?_, herror, hbytes⟩
    rw [hbytes]
    exact logRoom_item hk hsize hdata

theorem length_lt_of_header {k size : ℕ} (hk : k ∈ [1, 2, 3]) (hsize : size < 256 ^ k) :
    size < 2 ^ 24 := by
  have hthree : k = 1 ∨ k = 2 ∨ k = 3 := by simpa using hk
  rcases hthree with rfl | rfl | rfl <;> omega

/-- An item whose header has as few length bytes as it needs. -/
theorem itemHeader_eq_headerBytes {t : SecsType} {k n : ℕ} (hk : k = minLengthBytes n) :
    itemHeader t n = headerBytes t k n := by
  rw [itemHeader_eq, minHeader, hk]

theorem variableText_eq_iff {data : Bytes} : variableText data = data ↔ 0xFF ∉ data := by
  have hid : variableText data = data ↔ ∀ b ∈ data, (if b = 0xFF then chr '$' else b) = id b := by
    rw [← List.map_inj_left, List.map_id]
    rfl
  rw [hid]
  constructor
  · intro h hmem
    exact absurd (h _ hmem) (by decide)
  · intro h b hb
    rw [if_neg, id]
    rintro rfl
    exact h hb

theorem sentBack_ascii_iff {p : Program σ} {k : ℕ} {data : Bytes}
    (hp : PresentsValue cmds p .ascii data) (head : MessageHead) (hk : k ∈ [1, 2, 3])
    (hsize : data.length < 256 ^ k) :
    Encodes cmds scan fl head p (headerBytes .ascii k data.length ++ data) ↔
      k = minLengthBytes data.length ∧ 0xFF ∉ data := by
  have hlt := length_lt_of_header hk hsize
  have hlen : (variableText data).length = data.length := List.length_map ..
  have hmod : data.length % 2 ^ 32 = data.length := Nat.mod_eq_of_lt (by omega)
  rw [encodes_value_iff cmds scan fl hp rfl head hk hsize trivial]
  simp only [convertAscii, true_and, hlen, hmod]
  constructor
  · intro h
    obtain ⟨-, htext, hmin⟩ := headerBytes_append_inj hk hlt hsize h
    exact ⟨hmin, variableText_eq_iff.1 htext⟩
  · rintro ⟨hmin, hfree⟩
    rw [variableText_eq_iff.2 hfree, itemHeader_eq_headerBytes hmin]

theorem sentBack_boolean_iff {p : Program σ} {k : ℕ} {data : Bytes}
    (hp : PresentsValue cmds p (.elements .boolean) (storedValue fl (.elements .boolean) data))
    (head : MessageHead) (hk : k ∈ [1, 2, 3]) (hsize : data.length < 256 ^ k) :
    Encodes cmds scan fl head p (headerBytes (.elements .boolean) k data.length ++ data) ↔
      k = minLengthBytes data.length ∧ (data = [0] ∨ data = [1]) := by
  rw [encodes_value_iff cmds scan fl hp rfl head hk hsize (one_dvd _)]
  cases data with
  | nil =>
      have hvalue : storedValue fl (.elements .boolean) [] = [] := by
        simp only [storedValue, List.length_nil, Nat.zero_div, joinedElements]
      rw [hvalue]
      simp [variableText, convertBoolean, firstByte, chr]
  | cons b bs =>
      have hcount : (b :: bs).length / (ElementType.boolean.plainKind fl).width = bs.length + 1 :=
        Nat.div_one _
      have hconvert : convertBoolean (variableText (storedValue fl (.elements .boolean) (b :: bs))) =
          ⟨[if b = 0 then 0 else 1], 1, false, false⟩ := by
        simp only [storedValue, hcount, joinedElements]
        by_cases hb : b = 0
        · simp only [hb, if_true]
          rfl
        · simp only [hb, if_false]
          simp [ElementType.plainKind, plainBoolean, firstByte, hb, cstr, variableText,
            convertBoolean, chr]
      simp only [hconvert, true_and]
      constructor
      · intro h
        obtain ⟨hlen, hdata, hmin⟩ := headerBytes_append_inj hk (by omega) hsize h
        refine ⟨hmin, ?_⟩
        rw [← hdata]
        split
        · exact .inl rfl
        · exact .inr rfl
      · rintro ⟨hmin, hdata⟩
        rcases hdata with hdata | hdata
        · cases hdata
          rw [hmin]
          rfl
        · cases hdata
          rw [hmin]
          rfl

theorem sentBack_number_iff {p : Program σ} {t : ElementType} {k : ℕ} {data : Bytes}
    (ht : (SecsType.elements t).StoresText) (hbool : t ≠ .boolean)
    (hp : PresentsValue cmds p (.elements t) (storedValue fl (.elements t) data))
    (head : MessageHead) (hk : k ∈ [1, 2, 3]) (hsize : data.length < 256 ^ k)
    (hdata : t.width ∣ data.length) :
    Encodes cmds scan fl head p (headerBytes (.elements t) k data.length ++ data) ↔
      k = minLengthBytes data.length ∧ data = [] := by
  obtain ⟨minus, convert, hbranch, hblank⟩ := branchOf_number scan ht hbool
  have hprint : ∀ c ∈ storedValue fl (.elements t) data, IsPrintable c :=
    isPrintable_joinedElements (plainKind_printable fl ht) _ _
  obtain ⟨htext, hstring⟩ := variableText_printable hprint
  rw [encodes_value_iff cmds scan fl hp hbranch head hk hsize hdata, htext, hstring]
  by_cases hnil : data = []
  · subst hnil
    have hvalue : storedValue fl (.elements t) [] = [] := by
      simp only [storedValue, List.length_nil, Nat.zero_div, joinedElements]
    have hempty : valuesLoop convert [] = ⟨[], 0, false, false⟩ := by
      rw [valuesLoop, if_pos rfl]
    rw [hvalue, hempty]
    simp only [true_and, and_true, List.length_nil, Nat.zero_mod]
    constructor
    · intro h
      exact (headerBytes_append_inj hk (by omega) hsize h).2.2
    · intro hmin
      rw [itemHeader_eq_headerBytes hmin]
  · have hcount : data.length / (t.plainKind fl).width ≠ 0 := by
      rw [t.plainKind_width]
      have hpos : 0 < data.length := List.length_pos_of_ne_nil hnil
      exact (Nat.div_pos (Nat.le_of_dvd hpos hdata) t.width_pos).ne'
    have herror : (valuesLoop convert (storedValue fl (.elements t) data)).error = true :=
      valuesLoop_blank hblank (getLast?_joinedElements _ hcount _)
    simp [herror, hnil]

theorem sentBack_iff (item : StoredItem) {p : Program σ}
    (hp : PresentsValue cmds p item.type (storedValue fl item.type item.data))
    (head : MessageHead) : Encodes cmds scan fl head p item.bytes ↔ item.ComesBack := by
  obtain ⟨t, k, data, hstores, hk, hsize, hdata, hnul⟩ := item
  rcases t with _ | _ | t
  · exact hstores.elim
  · exact sentBack_ascii_iff cmds scan fl hp head hk hsize
  · by_cases hbool : t = .boolean
    · subst hbool
      exact sentBack_boolean_iff cmds scan fl hp head hk hsize
    · have hback : StoredItem.ComesBack ⟨.elements t, k, data, hstores, hk, hsize, hdata, hnul⟩ ↔
          k = minLengthBytes data.length ∧ data = [] := by
        cases t
        case boolean => exact (hbool rfl).elim
        all_goals rfl
      rw [hback]
      exact sentBack_number_iff cmds scan fl hstores hbool hp head hk hsize hdata

end

/-- What the decoder stores for an item comes back as the item, when it is sent as the value of an
item of the same type, exactly for the items of `ComesBack`. -/
theorem stored_value_comes_back_iff {σ : Type} (cmds : EncodeCommands σ) (scan : FloatScan)
    (fl : FloatText) (head : MessageHead) (p : Program σ) (item : StoredItem) (body : MessageBody)
    (varPrefix log name value : Bytes) (status : ℕ) (st : DecodeState)
    (hbody : body.bytes = item.bytes)
    (hdecode : secsDecodeNoArrays fl varPrefix body log = .ok (status, st))
    (hvalue : (name, value) ∈ st.vars) (hp : PresentsValue cmds p item.type value) :
    Encodes cmds scan fl head p body.bytes ↔ item.ComesBack := by
  obtain ⟨name', hvars⟩ := secsDecodeNoArrays_item fl item.lengthBytes_mem item.length_fits
    item.holds hbody hdecode
  rw [hvars, List.mem_singleton, Prod.mk.injEq] at hvalue
  obtain ⟨-, rfl⟩ := hvalue
  rw [hbody]
  exact sentBack_iff cmds scan fl item hp head

/-! ## A text and a pair of numbers -/

theorem secsDecodeNoArrays_of_fits {fl : FloatText} {varPrefix : Bytes} {body : MessageBody}
    (hfits : FitsBuffers fl varPrefix body) (hwalk : (walk body.bytes).2 = .finished) (log : Bytes) :
    ∃ st, secsDecodeNoArrays fl varPrefix body log = .ok (0, st) := by
  obtain ⟨out, hout⟩ := (secsDecode_status_iff fl varPrefix body log 0).2
    ⟨hfits, by rw [hwalk]; rfl⟩
  have hagree : Agree SameRun (secsDecode fl varPrefix body log)
      (secsDecodeNoArrays fl varPrefix body log) := decodeLoop_agrees fl varPrefix ⟨[], rfl⟩
  rw [hout] at hagree
  cases hplain : secsDecodeNoArrays fl varPrefix body log with
  | error fault =>
      rw [hplain] at hagree
      exact hagree.elim
  | ok r =>
      rw [hplain] at hagree
      obtain ⟨status, st⟩ := r
      obtain rfl : 0 = status := hagree.1
      exact ⟨st, rfl⟩

/-- A token that is one variable is evaluated to the text of its value. -/
theorem evaluateRounds_variable {variableGet : Bytes → Option Bytes} {name value : Bytes}
    (hwords : ∀ c ∈ name, isWord c = true) (hne : name ≠ []) (hget : variableGet name = some value)
    (hzero : 0 ∉ value) (n : ℕ) :
    evaluateRounds variableGet (n + 2) (chr '$' :: name) = variableText value := by
  have hempty : PlainValue [] := plain_words fun _ h => absurd h List.not_mem_nil
  have hclear : Clear [] := ⟨0, rfl, fun _ => ⟨List.not_mem_nil, List.not_mem_nil⟩⟩
  have hends : EndsReference [] := fun _ h => absurd h (Option.not_mem_none _)
  have hreference : OneReference [] name [] := ⟨hclear, hends, hempty, hwords, hne, hempty⟩
  have hstep := hreference.evaluateStep hget hzero
  rw [List.nil_append, List.nil_append, List.append_nil, List.append_nil] at hstep
  have hmarked : 0 ∉ marked value := zero_notMem_marked hzero
  have hno : chr '$' ∉ cString (marked value) := by
    rw [cString_eq_self hmarked]
    exact dollar_notMem_marked value
  rw [evaluateRounds, hstep]
  dsimp only
  rw [evaluateRounds, evaluateStep, if_neg hno]
  dsimp only
  rw [replaceChar, cString_eq_self hmarked, List.drop_length, List.append_nil, marked,
    List.map_map, variableText]
  refine List.map_congr_left fun c _ => ?_
  simp only [Function.comp_apply]
  by_cases hdollar : c = chr '$'
  · rw [if_pos hdollar, if_pos rfl, hdollar]
    rfl
  · rw [if_neg hdollar]

def valueCommands (value : Bytes) : EncodeCommands Unit :=
  ⟨fun text env =>
      (evaluateRounds (fun name => if name = cstr "v" then some value else none) 2 text, env),
    fun p => (1, p), fun p => (1, p)⟩

/-- The program `S1F1 0 < TYPE $v > .`. -/
def sendValue (t : SecsType) : Program Unit :=
  s1f1 [lessThan, word t.word, ⟨.variable_, cstr "$v", fun h => by cases h⟩, greaterThan]

theorem presentsValue_sendValue (t : SecsType) {value : Bytes} (hzero : 0 ∉ value) :
    PresentsValue (valueCommands value) (sendValue t) t value := by
  have heval : (valueCommands value).evaluateToken (cstr "$v") (sendValue t).env =
      (variableText value, ()) := by
    refine Prod.ext ?_ rfl
    exact evaluateRounds_variable (List.forall_mem_singleton.2 rfl) (List.cons_ne_nil _ _)
      (if_pos rfl) hzero 0
  exact ⟨_, _, _, _, _, _, _, _, rfl, .plain numberTokens_s1f1, rfl, isWord_word _, rfl, rfl, heval,
    rfl, rfl⟩

def hiItem : StoredItem where
  type := .ascii
  lengthBytes := 1
  data := cstr "HI"
  stores := trivial
  lengthBytes_mem := List.mem_cons_self
  length_fits := by decide
  holds := trivial
  nul_free := fun _ => by decide

def hiBody : MessageBody := ⟨hiItem.bytes, by decide⟩

theorem walk_hiBody : walk hiBody.bytes = ([⟨0x40, 2⟩], .finished) := by
  have hheader : takeHeader hiBody.bytes = some (⟨0x40, 2⟩, cstr "HI") := rfl
  rw [walk_some hheader]
  simp [secsType?, SecsType.ownBytes, cstr, walk_nil]

theorem hiBody_fits : FitsBuffers ⟨fun _ => [], fun _ => []⟩ (cstr "S1F1") hiBody := by
  rw [FitsBuffers, walk_hiBody]
  refine ⟨headerFits_s1f1 _ _ ?_, fun _ _ => trivial⟩
  intro t ht
  cases ht

theorem stored_value_comes_back_hi :
    ∃ st name value, secsDecodeNoArrays ⟨fun _ => [], fun _ => []⟩ (cstr "S1F1") hiBody [] =
        .ok (0, st) ∧ (name, value) ∈ st.vars ∧
      Encodes (valueCommands value) noScan ⟨fun _ => [], fun _ => []⟩ ⟨0, 0, 0, 0⟩
        (sendValue .ascii) hiBody.bytes := by
  obtain ⟨st, hdecode⟩ := secsDecodeNoArrays_of_fits hiBody_fits (by rw [walk_hiBody]) []
  obtain ⟨name, hvars⟩ := secsDecodeNoArrays_item ⟨fun _ => [], fun _ => []⟩ hiItem.lengthBytes_mem
    hiItem.length_fits hiItem.holds rfl hdecode
  have hmem : (name, storedValue ⟨fun _ => [], fun _ => []⟩ hiItem.type hiItem.data) ∈ st.vars := by
    rw [hvars]
    exact List.mem_cons_self
  refine ⟨st, _, _, hdecode, hmem, ?_⟩
  refine (stored_value_comes_back_iff _ noScan _ ⟨0, 0, 0, 0⟩ _ hiItem hiBody _ _ _ _ _ _ rfl hdecode
    hmem (presentsValue_sendValue _ (by decide))).2 ⟨rfl, ?_⟩
  simp [hiItem, cstr, chr]

/-- The value `5 6 ` of an unsigned item is refused for the blank at its end. -/
theorem stored_value_not_always_comes_back :
    ¬ ∀ {σ : Type} (cmds : EncodeCommands σ) (scan : FloatScan) (fl : FloatText)
      (head : MessageHead) (p : Program σ) (item : StoredItem) (body : MessageBody)
      (varPrefix log name value : Bytes) (status : ℕ) (st : DecodeState),
      body.bytes = item.bytes → secsDecodeNoArrays fl varPrefix body log = .ok (status, st) →
      (name, value) ∈ st.vars → PresentsValue cmds p item.type value →
      Encodes cmds scan fl head p body.bytes := by
  intro hall
  let item : StoredItem := ⟨.elements .unsigned1, 1, [5, 6], trivial, List.mem_cons_self, by decide,
    one_dvd _, by simp⟩
  have hbody : unsignedPair.bytes = item.bytes := rfl
  obtain ⟨st, hdecode⟩ := secsDecodeNoArrays_of_fits unsignedPair_fits (by rw [walk_unsignedPair]) []
  obtain ⟨name, hvars⟩ := secsDecodeNoArrays_item _ item.lengthBytes_mem item.length_fits item.holds
    hbody hdecode
  have hmem : (name, storedValue ⟨fun _ => [], fun _ => []⟩ item.type item.data) ∈ st.vars := by
    rw [hvars]
    exact List.mem_cons_self
  have hprint : ∀ c ∈ storedValue ⟨fun _ => [], fun _ => []⟩ item.type item.data, IsPrintable c :=
    isPrintable_joinedElements (plainKind_printable _ item.stores) _ _
  have hzero : 0 ∉ storedValue ⟨fun _ => [], fun _ => []⟩ item.type item.data :=
    fun hmem => absurd (hprint 0 hmem) (by decide)
  have hp := presentsValue_sendValue item.type hzero
  have hencodes := hall _ noScan _ ⟨0, 0, 0, 0⟩ _ item unsignedPair _ _ _ _ _ _ hbody hdecode hmem hp
  rw [hbody] at hencodes
  have hback := (sentBack_iff _ noScan _ item hp ⟨0, 0, 0, 0⟩).1 hencodes
  exact absurd hback.2 (by simp)

end ScOpen
