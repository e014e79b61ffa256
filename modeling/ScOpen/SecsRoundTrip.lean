import ScOpen.SecsDecodeVars
import ScOpen.SecsEncodeRight

/-!
# Integers through the encoder and the decoder

A message of integers comes back from its bytes exactly when every number is kept by the
encoder's conversion and by its type, every length by its length bytes, and the fixed arrays of
the log and of the decoder have room. A number that does not fit its type is only refused when an
unsigned one is written as a text with a sign; any other is altered.
-/

namespace ScOpen

/-! ## Along the items -/

theorem takeHeader_minHeader (t : SecsType) (size : ℕ) (tail : Bytes) :
    takeHeader (minHeader t size ++ tail) = some (⟨t.code, size % 2 ^ 24⟩, tail) := by
  by_cases hlt : size < 2 ^ 24
  · rw [Nat.mod_eq_of_lt hlt]
    exact takeHeader_headerBytes (minLengthBytes_mem size) (lt_pow_minLengthBytes hlt) tail
  · have hthree : minLengthBytes size = 3 := by
      rw [minLengthBytes, if_neg (by omega), if_neg (by omega)]
    have hcut : minHeader t size = headerBytes t 3 (size % 256 ^ 3) := by
      rw [minHeader, hthree, headerBytes, headerBytes, beBytes_mod]
    rw [hcut]
    exact takeHeader_headerBytes (by decide) (Nat.mod_lt _ (by decide)) tail

/-- The levels in front of the items that follow an item. -/
theorem frames_next {next : Sml} {top : Frame} (below : List Frame)
    (hopen : ∀ i, 0 < i → i < next.count + 1 → sub32 top.e i ≠ 0) (hne : next.count ≠ 0) :
    closed (⟨sub32 top.e 1, top.ie + 1⟩ :: below) = ⟨sub32 top.e 1, top.ie + 1⟩ :: below ∧
      ∀ i, 0 < i → i < next.count → sub32 (sub32 top.e 1) i ≠ 0 := by
  constructor
  · apply closed_of_ne
    exact hopen 1 one_pos (by omega)
  · intro i hi hlt
    rw [sub32_sub32]
    exact hopen (1 + i) (by omega) (by omega)

section

variable {fl : FloatText} {varPrefix : Bytes} {r : ℕ × DecodeState}

/-- The decoder adds the variables of the items that were encoded. -/
theorem Passes.encoded {f : Sml} (hint : f.All Leaf.IsInteger) (hkept : f.All Leaf.Kept)
    (hsizes : f.SizesFit) {top : Frame} {below : List Frame} {vars : List TmpVariable}
    {tail : Bytes} (hpass : Passes fl varPrefix r (f.encode ++ tail) (top :: below) vars)
    (hopen : ∀ i, 0 < i → i < f.count → sub32 top.e i ≠ 0) :
    Passes fl varPrefix r tail (framesPast f.count top below)
      (vars ++ f.vars (itemName varPrefix below) (top.ie + 1)) := by
  induction f generalizing top below vars tail with
  | done => simpa [Sml.encode, Sml.count, framesPast, Sml.vars] using hpass
  | list kids next ihkids ihnext =>
      have hnext : Passes fl varPrefix r (next.encode ++ tail)
          (closed (⟨sub32 top.e 1, top.ie + 1⟩ :: below))
          (vars ++ [(positionName (itemName varPrefix below) (top.ie + 1), intText kids.count)] ++
            kids.vars (positionName (itemName varPrefix below) (top.ie + 1)) 1) := by
        have hcount : myItoa (kids.count : ℤ) = intText kids.count := myItoa_eq_intText (by omega)
        have hlt : kids.count < 2 ^ 32 := hsizes.1.trans (by decide)
        rw [Sml.encode, List.append_assoc, List.append_assoc] at hpass
        have hturn := hpass.turn (takeHeader_minHeader _ _ _) (secsType?_code .list)
        rw [nextName_eq, Nat.mod_eq_of_lt hsizes.1] at hturn
        simp only [SecsType.ownBytes, List.drop_zero, itemVars, hcount] at hturn
        by_cases hzero : kids.count = 0
        · rw [framesAfter_of_not_list fun h => h.2 hzero] at hturn
          rw [Sml.eq_done_of_count hzero] at hturn ⊢
          simpa [Sml.encode, Sml.vars] using hturn
        · rw [framesAfter_list hzero] at hturn
          have hkids := ihkids hint.1 hkept.1 hsizes.2.1 hturn
            fun i _ hi => list_stays_open hlt i hi
          rwa [framesPast_list hzero hlt, itemName_cons] at hkids
      rw [Sml.vars, Sml.count, framesPast_succ]
      by_cases hzero : next.count = 0
      · rw [Sml.eq_done_of_count hzero] at hnext ⊢
        simpa [Sml.encode, Sml.count, Sml.vars] using hnext
      · obtain ⟨hframes, hopen'⟩ := frames_next below hopen hzero
        rw [hframes] at hnext
        have hrest := ihnext hint.2 hkept.2 hsizes.2.2 hnext hopen'
        rw [if_neg hzero]
        simpa using hrest
  | leaf v next ih =>
      have hnext : Passes fl varPrefix r (next.encode ++ tail)
          (closed (⟨sub32 top.e 1, top.ie + 1⟩ :: below))
          (vars ++ v.vars (positionName (itemName varPrefix below) (top.ie + 1))) := by
        rw [Sml.encode, List.append_assoc, List.append_assoc] at hpass
        have hturn := hpass.turn (takeHeader_minHeader _ _ _) (secsType?_code v.secsType)
        rw [nextName_eq, Nat.mod_eq_of_lt hsizes.1] at hturn
        simp only [v.ownBytes, List.drop_left] at hturn
        rw [framesAfter_of_not_list fun h => v.secsType_ne_list h.1] at hturn
        rwa [v.itemVars_kept fl hint.1 hkept.1] at hturn
      rw [Sml.vars, Sml.count, framesPast_succ]
      by_cases hzero : next.count = 0
      · rw [Sml.eq_done_of_count hzero] at hnext ⊢
        simpa [Sml.encode, Sml.count, Sml.vars] using hnext
      · obtain ⟨hframes, hopen'⟩ := frames_next below hopen hzero
        rw [hframes] at hnext
        have hrest := ih hint.2 hkept.2 hsizes.2 hnext hopen'
        rw [if_neg hzero]
        simpa using hrest

/-- When the variables of the items come out, every value and every length was kept. -/
theorem Passes.kept {f : Sml} (hint : f.All Leaf.IsInteger)
    (hok : f.All fun v => v.rejected = false) {top : Frame} {below : List Frame}
    {vars : List TmpVariable} {tail : Bytes}
    (hpass : Passes fl varPrefix r (f.stored ++ tail) (top :: below) vars)
    (hopen : ∀ i, 0 < i → i < f.count → sub32 top.e i ≠ 0)
    (hvars : ∃ more, r.2.vars =
      vars ++ (f.vars (itemName varPrefix below) (top.ie + 1) ++ more)) :
    f.All Leaf.Kept ∧ f.SizesFit := by
  induction f generalizing top below vars tail with
  | done => exact ⟨trivial, trivial⟩
  | list kids next ihkids ihnext =>
      obtain ⟨more, hvars⟩ := hvars
      rw [Sml.stored, itemHeader_eq, List.append_assoc, List.append_assoc] at hpass
      have hturn := hpass.turn (takeHeader_minHeader _ _ _) (secsType?_code .list)
      have hcount : myItoa ((kids.count % 2 ^ 24 : ℕ) : ℤ) = intText (kids.count % 2 ^ 24 : ℕ) :=
        myItoa_eq_intText (by omega)
      rw [nextName_eq] at hturn
      simp only [SecsType.ownBytes, List.drop_zero, itemVars, hcount] at hturn
      have hsize : kids.count % 2 ^ 24 = kids.count := by
        obtain ⟨more', hmore'⟩ := hturn.extends
        rw [hvars, List.append_assoc, List.append_cancel_left_eq, Sml.vars] at hmore'
        simp only [List.cons_append, List.cons.injEq, Prod.mk.injEq] at hmore'
        exact_mod_cast (intText_injective hmore'.1.2).symm
      have hlt : kids.count < 2 ^ 24 := by
        rw [← hsize]
        exact Nat.mod_lt _ (by decide)
      have hlt' : kids.count < 2 ^ 32 := hlt.trans (by decide)
      rw [hsize] at hturn
      rw [Sml.vars] at hvars
      have hnext : (kids.All Leaf.Kept ∧ kids.SizesFit) ∧
          Passes fl varPrefix r (next.stored ++ tail)
            (closed (⟨sub32 top.e 1, top.ie + 1⟩ :: below))
            (vars ++ [(positionName (itemName varPrefix below) (top.ie + 1), intText kids.count)] ++
              kids.vars (positionName (itemName varPrefix below) (top.ie + 1)) 1) := by
        by_cases hzero : kids.count = 0
        · rw [framesAfter_of_not_list fun h => h.2 hzero] at hturn
          rw [Sml.eq_done_of_count hzero] at hturn ⊢
          refine ⟨⟨trivial, trivial⟩, ?_⟩
          simpa [Sml.stored, Sml.vars] using hturn
        · rw [framesAfter_list hzero] at hturn
          have hopen' : ∀ i, 0 < i → i < kids.count → sub32 kids.count i ≠ 0 :=
            fun i _ hi => list_stays_open hlt' i hi
          obtain ⟨hkept, hsizes⟩ := ihkids hint.1 hok.1 hturn hopen' (by
            refine ⟨next.vars (itemName varPrefix below) (top.ie + 1 + 1) ++ more, ?_⟩
            rw [hvars, itemName_cons]
            simp)
          refine ⟨⟨hkept, hsizes⟩, ?_⟩
          rw [Sml.stored_eq_encode hkept hsizes] at hturn
          have hkids := hturn.encoded hint.1 hkept hsizes hopen'
          rwa [framesPast_list hzero hlt', itemName_cons] at hkids
      obtain ⟨⟨hkept, hsizes⟩, hnext⟩ := hnext
      by_cases hzero : next.count = 0
      · rw [Sml.eq_done_of_count hzero]
        exact ⟨⟨hkept, trivial⟩, hlt, hsizes, trivial⟩
      · obtain ⟨hframes, hopen'⟩ := frames_next below hopen hzero
        rw [hframes] at hnext
        obtain ⟨hkept', hsizes'⟩ := ihnext hint.2 hok.2 hnext hopen' ⟨more, by rw [hvars]; simp⟩
        exact ⟨⟨hkept, hkept'⟩, hlt, hsizes, hsizes'⟩
  | leaf v next ih =>
      obtain ⟨more, hvars⟩ := hvars
      rw [Sml.stored, itemHeader_eq, List.append_assoc, List.append_assoc] at hpass
      have hturn := hpass.turn (takeHeader_minHeader _ _ _) (secsType?_code v.secsType)
      have hmod : v.storedData.length % 2 ^ 32 % 2 ^ 24 = v.storedData.length % 2 ^ 24 :=
        Nat.mod_mod_of_dvd _ (by decide)
      rw [nextName_eq, hmod] at hturn
      obtain ⟨hkept, hlt⟩ : v.Kept ∧ v.data.length < 2 ^ 24 := by
        obtain ⟨more', hmore'⟩ := hturn.extends
        rw [hvars, List.append_assoc, List.append_cancel_left_eq, Sml.vars, List.append_assoc]
          at hmore'
        exact Leaf.kept_of_itemVars fl hint.1 hok.1 rfl hmore'.symm
      have hnext : Passes fl varPrefix r (next.stored ++ tail)
          (closed (⟨sub32 top.e 1, top.ie + 1⟩ :: below))
          (vars ++ v.vars (positionName (itemName varPrefix below) (top.ie + 1))) := by
        rw [hkept.storedData, Nat.mod_eq_of_lt hlt] at hturn
        simp only [v.ownBytes, List.drop_left] at hturn
        rw [framesAfter_of_not_list fun h => v.secsType_ne_list h.1] at hturn
        rwa [v.itemVars_kept fl hint.1 hkept] at hturn
      by_cases hzero : next.count = 0
      · rw [Sml.eq_done_of_count hzero]
        exact ⟨⟨hkept, trivial⟩, hlt, trivial⟩
      · obtain ⟨hframes, hopen'⟩ := frames_next below hopen hzero
        rw [hframes] at hnext
        rw [Sml.vars] at hvars
        obtain ⟨hkept', hsizes'⟩ := ih hint.2 hok.2 hnext hopen' ⟨more, by rw [hvars]; simp⟩
        exact ⟨⟨hkept, hkept'⟩, hlt, hsizes'⟩

end

/-! ## Whole messages -/

theorem Sml.count_le_stored (f : Sml) : f.count ≤ f.stored.length := by
  induction f with
  | done => exact le_rfl
  | list kids next ihkids ihnext =>
      simp only [Sml.count, Sml.stored, itemHeader, List.length_append, List.length_cons]
      omega
  | leaf v next ih =>
      simp only [Sml.count, Sml.stored, itemHeader, List.length_append, List.length_cons]
      omega

def DecodesTo (fl : FloatText) (varPrefix log buffer : Bytes) (vars : List TmpVariable) : Prop :=
  ∃ (h : buffer.length < 2 ^ 32) (status : ℕ) (out : DecodeState),
    secsDecode fl varPrefix ⟨buffer, h⟩ log = .ok (status, out) ∧ out.vars = vars

theorem passes_start {fl : FloatText} {varPrefix log buffer : Bytes} (h : buffer.length < 2 ^ 32)
    {r : ℕ × DecodeState} (hrun : secsDecode fl varPrefix ⟨buffer, h⟩ log = .ok r) :
    Passes fl varPrefix r buffer [⟨0, 0⟩] [] := by
  refine ⟨⟨_, _, hrun⟩, h, [], ⟨0, 0⟩, rfl, ?_, by simp, by simp⟩
  rw [sub32_zero_left one_pos (by decide)]
  omega

theorem bottom_stays_open {f : Sml} (h : f.stored.length < 2 ^ 32) :
    ∀ i, 0 < i → i < f.count → sub32 0 i ≠ 0 := by
  intro i hi hlt
  have hcount := f.count_le_stored
  rw [sub32_zero_left hi (by omega)]
  omega

/-- What was stored decodes to the written values exactly when all of them were kept. -/
theorem decodesTo_stored_iff (fl : FloatText) (varPrefix log : Bytes) {f : Sml}
    (hint : f.All Leaf.IsInteger) (hok : f.All fun v => v.rejected = false) :
    DecodesTo fl varPrefix log f.stored (f.vars varPrefix 1) ↔
      f.All Leaf.Kept ∧ f.SizesFit ∧
        ∃ h : f.encode.length < 2 ^ 32, FitsBuffers fl varPrefix ⟨f.encode, h⟩ := by
  have hname : itemName varPrefix [] = varPrefix := by simp [itemName]
  constructor
  · rintro ⟨hlen, status, out, hrun, hvars⟩
    have hpass := passes_start hlen hrun
    rw [← List.append_nil f.stored] at hpass
    obtain ⟨hkept, hsizes⟩ := hpass.kept hint hok (bottom_stays_open hlen)
      ⟨[], by simp [hvars, hname]⟩
    refine ⟨hkept, hsizes, ?_⟩
    have hstored := Sml.stored_eq_encode hkept hsizes
    have hfits := ((secsDecode_status_iff fl varPrefix ⟨f.stored, hlen⟩ log status).1
      ⟨out, hrun⟩).1
    simp only [hstored] at hlen hfits
    exact ⟨hlen, hfits⟩
  · rintro ⟨hkept, hsizes, hlen, hfits⟩
    have hend : (walk f.encode).2.status = some 0 := by
      rw [Sml.walk_encode_all hsizes]
      rfl
    obtain ⟨out, hrun⟩ := (secsDecode_status_iff fl varPrefix ⟨f.encode, hlen⟩ log 0).2
      ⟨hfits, hend⟩
    have hstored := Sml.stored_eq_encode hkept hsizes
    have hopen := bottom_stays_open (hstored ▸ hlen)
    have hpass := passes_start hlen hrun
    rw [← List.append_nil f.encode] at hpass
    have hdone := (hpass.encoded hint hkept hsizes hopen).finished
    rw [hstored]
    exact ⟨hlen, 0, out, hrun, by simpa [hname] using hdone⟩

/-- A number has a place in its type and comes through the conversion: signed numbers go through
an `int`, and unsigned ones are read without a sign. -/
def Decimal.Converts (t : IntegerType) (d : Decimal) : Prop :=
  t.InRange d.value ∧
    if t.signed then -(2 ^ 31) ≤ d.value ∧ d.value < 2 ^ 31 else d.sign ≠ .text

theorem Decimal.converts_iff (t : IntegerType) (d : Decimal) : d.Converts t ↔ d.Kept t := by
  cases ht : t.signed with
  | false =>
      simp only [Decimal.Converts, ht, Bool.false_eq_true, if_false]
      constructor
      · rintro ⟨hrange, hsign⟩
        by_cases hnone : d.sign = .none
        · exact Decimal.kept_unsigned ht hnone hrange
        · have hrej : d.rejected t = false := by simp [Decimal.rejected, hsign]
          have hvalue : d.value = -(decimalValue d.digits : ℤ) := by simp [Decimal.value, hnone]
          have hzero : decimalValue d.digits = 0 := by
            simp only [IntegerType.InRange, ht, Bool.false_eq_true, if_false, hvalue] at hrange
            omega
          refine ⟨hrange, hrej, ?_⟩
          simp [Decimal.storedBytes, hrej, Decimal.stored, ht, hvalue, hzero]
      · rintro ⟨hrange, hrej, -⟩
        refine ⟨hrange, ?_⟩
        simpa [Decimal.rejected, ht] using hrej
  | true =>
      simp only [Decimal.Converts, ht, if_true]
      constructor
      · rintro ⟨hrange, hint⟩
        exact Decimal.kept_signed ht hrange hint
      · intro hkept
        refine ⟨hkept.1, ?_⟩
        have hwrap := (d.kept_iff t hkept.2.1).1 hkept
        have hrange := hkept.1
        have hlow := Int.le_bmod (x := d.value) (m := 2 ^ 32) (by decide)
        have hhigh := Int.bmod_lt (x := d.value) (m := 2 ^ 32) (by decide)
        simp only [IntegerType.wrap, Decimal.stored, ht, if_true] at hwrap
        simp only [IntegerType.InRange, ht, if_true] at hrange
        by_cases hwide : t.width = 8
        · obtain ⟨hpos, heven⟩ := t.room
          have hself : Int.bmod (Int.bmod d.value (2 ^ 32)) (256 ^ t.width) =
              Int.bmod d.value (2 ^ 32) := by
            rw [bmod_eq_self_iff hpos heven, hwide]
            omega
          rw [hself] at hwrap
          omega
        · have hnarrow : (256 : ℤ) ^ t.width ≤ 2 ^ 32 := by
            cases t <;> first | exact absurd rfl hwide | decide
          omega

def Leaf.Converts : Leaf → Prop
  | .integers t vs => ∀ d ∈ vs, d.Converts t
  | _ => True

theorem Leaf.converts_iff (v : Leaf) : v.Converts ↔ v.Kept := by
  cases v with
  | integers t vs => exact forall₂_congr fun d _ => d.converts_iff t
  | _ => exact Iff.rfl

def Leaf.Fits : Leaf → Prop
  | .integers t vs => ∀ d ∈ vs, t.InRange d.value
  | _ => True

/-- The encoder returns. When it returns 0, the decoder yields the written values from its bytes;
when a value does not fit its type, it returns an error. -/
def RoundTrips {σ : Type} (cmds : EncodeCommands σ) (scan : FloatScan) (fl : FloatText)
    (head : MessageHead) (p : Program σ) (f : Sml) (varPrefix log : Bytes) : Prop :=
  ∃ k r, (∀ n, secsEncode cmds scan fl (n + k) head [] p = some (.ok r)) ∧
    (r.iret = 0 → DecodesTo fl varPrefix log r.buffer (f.vars varPrefix 1)) ∧
    (¬ f.All Leaf.Fits → r.iret ≠ 0)

/-- Integers come back exactly when a value is refused, or when every one of them comes through
its conversion and the length bytes and the fixed arrays have room. -/
theorem secsEncode_roundTrips_iff {σ : Type} (cmds : EncodeCommands σ) (scan : FloatScan)
    (fl : FloatText) (head : MessageHead) (p : Program σ) (f : Sml) (varPrefix log : Bytes)
    (hp : Presents p f) (hint : f.All Leaf.IsInteger) :
    RoundTrips cmds scan fl head p f varPrefix log ↔
      (f.refused = true ∧ LogRoom f.written) ∨
        (f.All Leaf.Converts ∧ f.SizesFit ∧ f.NestingFits 22 0 ∧
          ∃ h : f.encode.length < 2 ^ 32, FitsBuffers fl varPrefix ⟨f.encode, h⟩) := by
  have hconverts : f.All Leaf.Converts ↔ f.All Leaf.Kept :=
    ⟨Sml.All.mono fun v => v.converts_iff.1, Sml.All.mono fun v => v.converts_iff.2⟩
  obtain ⟨k, head', p', hitems⟩ := encodeItems_presents cmds scan hp head
  rw [RoundTrips, secsEncode_returns_iff cmds scan fl hitems fun iret b =>
    (iret = 0 → DecodesTo fl varPrefix log b (f.vars varPrefix 1)) ∧
      (¬ f.All Leaf.Fits → iret ≠ 0), hconverts]
  cases href : f.refused with
  | true =>
      have hnot : ¬ f.All Leaf.Kept := by
        intro hkept
        rw [f.refused_eq_false_iff.2 (hkept.mono fun _ h => h.rejected)] at href
        cases href
      simp [hnot]
  | false =>
      have hok := f.refused_eq_false_iff.1 href
      rw [Sml.written_of_not_refused href]
      simp only [Bool.false_eq_true, if_false, false_and, false_or, forall_const,
        decodesTo_stored_iff fl varPrefix log hint hok]
      constructor
      · rintro ⟨hroom, ⟨hkept, hsizes, hlen, hfits⟩, -⟩
        rw [Sml.stored_eq_encode hkept hsizes, Sml.logRoom_iff hsizes] at hroom
        exact ⟨hkept, hsizes, hroom.1, hlen, hfits⟩
      · rintro ⟨hkept, hsizes, hnesting, hlen, hfits⟩
        refine ⟨?_, ⟨hkept, hsizes, hlen, hfits⟩, fun hnot => ?_⟩
        · rw [Sml.stored_eq_encode hkept hsizes, Sml.logRoom_iff hsizes]
          exact ⟨hnesting, hlen⟩
        · refine (hnot (hkept.mono fun v hv => ?_)).elim
          cases v with
          | integers t vs => exact fun d hd => (hv d hd).1
          | _ => trivial

/-! ## Two messages -/

/-- `< U1 300 >`. -/
def tooLarge : Sml := .leaf (.integers .unsigned1 [threeHundred]) .done

theorem tooLarge_renders : Renders tooLarge
    (lessThan :: word (cstr "U1") :: ([word (cstr "300")] ++ greaterThan :: [])) :=
  .leaf rfl (isWord_word _) rfl rfl (.integers (.plain rfl (isWord_word _) rfl .nil)) .done

theorem tooLarge_not_fits : ¬ tooLarge.All Leaf.Fits := by
  rintro ⟨hfits, -⟩
  have hrange : IntegerType.unsigned1.InRange 300 := hfits _ (List.mem_singleton_self _)
  exact absurd hrange (by decide)

/-- A value that is too large for its type is altered and no error is returned. -/
theorem secsEncode_not_always_roundTrips :
    ¬ ∀ {σ : Type} (cmds : EncodeCommands σ) (scan : FloatScan) (fl : FloatText)
      (head : MessageHead) (p : Program σ) (f : Sml) (varPrefix log : Bytes), Presents p f →
      f.All Leaf.IsInteger → RoundTrips cmds scan fl head p f varPrefix log := by
  intro hall
  have hp := presents_s1f1 tooLarge_renders
  obtain ⟨k, head', p', hitems⟩ :=
    encodeItems_presents noCommands noScan hp ⟨0, 0, 0, 0⟩
  have htrips := hall noCommands noScan noFloats ⟨0, 0, 0, 0⟩ _ _ (cstr "S1F1") [] hp
    ⟨trivial, trivial⟩
  rw [RoundTrips, secsEncode_returns_iff noCommands noScan noFloats hitems fun iret b =>
    (iret = 0 → DecodesTo noFloats (cstr "S1F1") [] b (tooLarge.vars (cstr "S1F1") 1)) ∧
      (¬ tooLarge.All Leaf.Fits → iret ≠ 0)] at htrips
  exact htrips.2.2 tooLarge_not_fits rfl

theorem HeaderFits.of_short {fl : FloatText} {varPrefix : Bytes} {frames : List Frame} {pad : Pad}
    {h : Header} (hname : (nextName varPrefix frames).length ≤ 30) (hdepth : frames.length < 70)
    (helements : ∀ t, secsType? h.code = some (.elements t) →
      ElementNamesFit (t.kind fl) (nextName varPrefix frames) h.size) :
    HeaderFits fl varPrefix frames pad h := by
  refine ⟨by omega, ?_, fun _ => terminated_writePad ?_, fun _ => by omega, helements⟩
  · simp only [padColumn, padSize]
    omega
  · simp only [padColumn]
    omega

theorem ElementNamesFit.of_single {k : ElementKind} {name : Bytes} {size : ℕ}
    (hsingle : k.isArray size = false) (hname : name.length < 256) :
    ElementNamesFit k name size where
  elements := fun i _ => by simpa [elementName, hsingle] using hname
  whole := fun _ harray => by simp [hsingle] at harray
  count := fun harray => by simp [hsingle] at harray

theorem sample_fits (h : sampleItems.encode.length < 2 ^ 32) :
    FitsBuffers noFloats (cstr "S1F1") ⟨sampleItems.encode, h⟩ := by
  have hone : intText 1 = cstr "1" := by
    simp [intText, decimal]
    rfl
  have htwo : intText 2 = cstr "2" := by
    simp [intText, decimal]
    rfl
  have hname₁ : (nextName (cstr "S1F1") [⟨0, 0⟩]).length = 6 := by
    simp [nextName_eq, positionName, itemName, hone, cstr]
  have hname₂ : (nextName (cstr "S1F1") [⟨2, 0⟩, ⟨sub32 0 1, 1⟩]).length = 8 := by
    rw [nextName_eq, itemName_cons]
    simp [positionName, itemName, hone, cstr]
  have hname₃ : (nextName (cstr "S1F1") [⟨1, 1⟩, ⟨sub32 0 1, 1⟩]).length = 8 := by
    rw [nextName_eq, itemName_cons]
    simp [positionName, itemName, hone, htwo, cstr]
  rw [FitsBuffers, Sml.walk_encode_all sample_sizesFit]
  have hheaders : sampleItems.headers =
      [⟨SecsType.list.code, 2⟩, ⟨(SecsType.elements .unsigned2).code, 2⟩,
        ⟨(SecsType.elements .signed1).code, 1⟩] := rfl
  simp only [hheaders, Fits, secsType?_code, Option.some.injEq, forall_eq', and_true,
    implies_true]
  rw [framesAfter_list (by decide), framesAfter_of_not_list (by simp), closed_of_ne _ (by decide)]
  refine ⟨.of_short (by omega) (by simp) (by simp [secsType?_code]),
    .of_short (le_of_eq_of_le hname₂ (by omega)) (by simp) fun t ht => ?_,
    .of_short (le_of_eq_of_le hname₃ (by omega)) (by simp) fun t ht => ?_⟩
  · rw [secsType?_code] at ht
    cases ht
    exact .of_single rfl (lt_of_eq_of_lt hname₂ (by omega))
  · rw [secsType?_code] at ht
    cases ht
    exact .of_single rfl (lt_of_eq_of_lt hname₃ (by omega))

theorem secsEncode_roundTrips_sample :
    RoundTrips noCommands noScan noFloats ⟨0, 0, 0, 0⟩ (s1f1 sampleTokens) sampleItems
      (cstr "S1F1") [] := by
  have hconverts : sampleItems.All Leaf.Converts := by
    refine ⟨⟨fun d hd => ?_, fun d hd => ?_, trivial⟩, trivial⟩
    · rw [List.mem_singleton.1 hd]
      exact ⟨by decide, by decide⟩
    · rw [List.mem_singleton.1 hd]
      exact ⟨by decide, by decide⟩
  exact (secsEncode_roundTrips_iff noCommands noScan noFloats ⟨0, 0, 0, 0⟩ (s1f1 sampleTokens)
    sampleItems (cstr "S1F1") [] (presents_s1f1 sample_renders)
    ⟨⟨trivial, trivial, trivial⟩, trivial⟩).2
    (.inr ⟨hconverts, sample_sizesFit, by simp [Sml.NestingFits, sampleItems], by decide,
      sample_fits _⟩)

end ScOpen
