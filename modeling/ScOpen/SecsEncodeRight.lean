import ScOpen.SmlHeaders
import ScOpen.SecsEncodeRefused

/-!
# The encoder writes the encoding

For every forest of items and every way to write it with tokens, the main loop writes exactly
the SECS-II encoding. What can go wrong comes after it: the log that is made of the bytes has no
room for an item inside more than 22 lists.
-/

namespace ScOpen

/-! ## The head of a message -/

structure NumberTokens (sf dev : Token) : Prop where
  sf_word : sf.IsWord
  dev_word : dev.IsWord
  sf_text : ∃ stream function, sf.text = chr 'S' :: (stream ++ chr 'F' :: function) ∧
    stream ≠ [] ∧ (∀ c ∈ stream, IsDigit c) ∧ function ≠ [] ∧ ∀ c ∈ function, IsDigit c
  dev_text : dev.text ≠ [] ∧ ∀ c ∈ dev.text, IsDigit c

/-- The tokens in front of the items; a word that starts with `W` asks for a reply. -/
inductive HeadTokens : List Token → Prop where
  | plain {sf dev : Token} (h : NumberTokens sf dev) : HeadTokens [sf, dev]
  | wait {sf dev w : Token} (h : NumberTokens sf dev) (hw : w.IsWord)
      (htext : firstByte w.text = chr 'W') : HeadTokens [sf, dev, w]

theorem takeWhile_digits {ds rest : Bytes} (hds : ∀ c ∈ ds, IsDigit c)
    (hrest : ¬ IsDigit (firstByte rest)) :
    (ds ++ rest).takeWhile (fun c => decide (IsDigit c)) = ds := by
  induction ds with
  | nil =>
      cases rest with
      | nil => rfl
      | cons c rest => simpa [firstByte] using hrest
  | cons c ds ih =>
      rw [List.cons_append, List.takeWhile_cons_of_pos (by simpa using hds c (by simp)),
        ih fun c' hc' => hds c' (by simp [hc'])]

theorem isSpace_of_isDigit {c : UInt8} (hc : IsDigit c) : isSpace c = false := by
  have h := (isDigit_iff c).1 hc
  have h32 : c ≠ 32 := by
    rintro rfl
    exact absurd hc (by decide)
  have h13 : ¬ c ≤ 13 := by
    rw [UInt8.le_iff_toNat_le]
    simp only [UInt8.reduceToNat]
    omega
  simp [isSpace, h32, h13]

/-- A number at the start of a text is read with what follows it left over. -/
theorem scanUnsigned_digits {ds rest : Bytes} (hne : ds ≠ []) (hds : ∀ c ∈ ds, IsDigit c)
    (hrest : ¬ IsDigit (firstByte rest)) :
    ∃ v, scanUnsigned (ds ++ rest) = some (v, rest) := by
  obtain ⟨c, ds', rfl⟩ := List.exists_cons_of_ne_nil hne
  have hc := hds c (by simp)
  have hdrop : (c :: (ds' ++ rest)).dropWhile isSpace = c :: (ds' ++ rest) := by
    rw [List.dropWhile_cons_of_neg (by simp [isSpace_of_isDigit hc])]
  have hminus : firstByte (c :: (ds' ++ rest)) ≠ chr '-' := ne_minus_of_isDigit hc
  have hplus : firstByte (c :: (ds' ++ rest)) ≠ chr '+' := by
    rintro h
    have hc' : c = chr '+' := h
    rw [hc'] at hc
    exact absurd hc (by decide)
  have htake := takeWhile_digits hds hrest
  rw [List.cons_append] at htake
  refine ⟨(if 2 ^ 64 ≤ decimalValue (c :: ds') then 2 ^ 64 - 1 else decimalValue (c :: ds')) %
    2 ^ 32, ?_⟩
  simp only [scanUnsigned, List.cons_append, hdrop, hminus, hplus, or_self, if_false, htake,
    reduceCtorEq]
  rw [← List.cons_append, List.drop_left]

theorem scanUnsigned_all {ds : Bytes} (hne : ds ≠ []) (hds : ∀ c ∈ ds, IsDigit c) :
    ∃ v, scanUnsigned ds = some (v, []) := by
  have hend : ¬ IsDigit (firstByte []) := by decide
  have h := scanUnsigned_digits hne hds hend
  rwa [List.append_nil] at h

theorem scanStreamFunction_digits {stream function : Bytes} (hs : stream ≠ [])
    (hsd : ∀ c ∈ stream, IsDigit c) (hf : function ≠ []) (hfd : ∀ c ∈ function, IsDigit c) :
    ∃ v w, scanStreamFunction (chr 'S' :: (stream ++ chr 'F' :: function)) =
      (some v, some w) := by
  have hF : ¬ IsDigit (firstByte (chr 'F' :: function)) := by
    simp only [firstByte, List.headD_cons]
    decide
  obtain ⟨v, hv⟩ := scanUnsigned_digits hs hsd hF
  obtain ⟨w, hw⟩ := scanUnsigned_all hf hfd
  refine ⟨v, w, ?_⟩
  simp only [scanStreamFunction, firstByte, List.headD_cons, if_true, List.tail_cons, hv, hw,
    Option.map_some]

section

variable {σ : Type} (cmds : EncodeCommands σ) (tokens : List Token) (env : σ)

theorem encodeNumbers_tokens {sf dev : Token} {ts : List Token} (h : NumberTokens sf dev)
    (head : MessageHead) (i s : ℕ) (hp : tokens.drop i = sf :: dev :: ts) :
    ∃ head', encodeNumbers cmds head ⟨tokens, i, s, env⟩ =
      (0, head', ⟨tokens, i + 1 + 1, i + 1, env⟩) := by
  obtain ⟨stream, function, htext, hs, hsd, hf, hfd⟩ := h.sf_text
  obtain ⟨v, w, hscan⟩ := scanStreamFunction_digits hs hsd hf hfd
  obtain ⟨d, hdev⟩ := scanUnsigned_all h.dev_text.1 h.dev_text.2
  have hsftext : cString sf.text = chr 'S' :: (stream ++ chr 'F' :: function) := by
    rw [htext]
    apply cString_eq_self
    intro hzero
    rcases List.mem_cons.1 hzero with hz | hz
    · exact absurd hz (by decide)
    · rcases List.mem_append.1 hz with hz | hz
      · exact zero_notMem_digits hsd hz
      · rcases List.mem_cons.1 hz with hz | hz
        · exact absurd hz (by decide)
        · exact zero_notMem_digits hfd hz
  have hdevtext : cString dev.text = dev.text :=
    cString_eq_self (zero_notMem_digits h.dev_text.2)
  have hget := getProgramToken_eq cmds.evaluateToken (p := ⟨tokens, i, s, env⟩) hp
    h.sf_word.ne_variable
  have hget' := getProgramToken_eq cmds.evaluateToken (p := ⟨tokens, i + 1, i, env⟩)
    (drop_succ_of_cons hp) h.dev_word.ne_variable
  refine ⟨{ head with stream := v, function := w, deviceId := d }, ?_⟩
  simp only [encodeNumbers, hget, hsftext, hscan, hget', hdevtext, hdev, reduceCtorEq, if_false,
    Option.getD_some]

theorem encodeHead_tokens {hs ts : List Token} {t : Token} (hhead : HeadTokens hs)
    (ht : t.text = []) (hvar : t.type ≠ .variable_) (head : MessageHead) (i s : ℕ)
    (hp : tokens.drop i = hs ++ t :: ts) :
    ∃ head' s', encodeHead cmds head ⟨tokens, i, s, env⟩ =
      (0, head', ⟨tokens, i + hs.length, s', env⟩) := by
  cases hhead with
  | plain h =>
      obtain ⟨head₁, hnumbers⟩ := encodeNumbers_tokens cmds tokens env h head i s hp
      have hget := getProgramToken_eq cmds.evaluateToken
        (p := ⟨tokens, i + 1 + 1, i + 1, env⟩) (drop_succ_of_cons (drop_succ_of_cons hp)) hvar
      have hne : firstByte t.text ≠ chr 'W' := by
        rw [ht]
        decide
      refine ⟨{ head₁ with waitBit := 0 }, i + 1 + 1, ?_⟩
      simp only [encodeHead, hnumbers, encodeWaitBit, hget, hne, if_false, putProgramToken]
      rfl
  | @wait sf dev w h hw htext =>
      obtain ⟨head₁, hnumbers⟩ := encodeNumbers_tokens cmds tokens env h head i s hp
      have hget := getProgramToken_eq cmds.evaluateToken
        (p := ⟨tokens, i + 1 + 1, i + 1, env⟩) (drop_succ_of_cons (drop_succ_of_cons hp))
        hw.ne_variable
      refine ⟨{ head₁ with waitBit := 1 }, i + 1 + 1, ?_⟩
      simp only [encodeHead, hnumbers, encodeWaitBit, hget, htext, if_true]
      rfl

/-! ## A whole message -/

theorem Renders.first_token {f : Sml} {ts : List Token} {period : Token} (hr : Renders f ts)
    (hperiod : period.type = .period) (us : List Token) :
    ∃ t vs, ts ++ period :: us = t :: vs ∧ t.text = [] ∧ t.type ≠ .variable_ := by
  cases hr with
  | done => exact ⟨period, us, rfl, period.text_of_type (by rw [hperiod]; rfl), by simp [hperiod]⟩
  | list hlt => exact ⟨_, _, rfl, Token.text_of_type _ (by rw [hlt]; rfl), by simp [hlt]⟩
  | leaf hlt => exact ⟨_, _, rfl, Token.text_of_type _ (by rw [hlt]; rfl), by simp [hlt]⟩
  | lineBreak heol => exact ⟨_, _, rfl, Token.text_of_type _ (by rw [heol]; rfl), by simp [heol]⟩

def Presents (p : Program σ) (f : Sml) : Prop :=
  ∃ hs ts period us, p.tokens.drop p.programIdx = hs ++ (ts ++ period :: us) ∧
    HeadTokens hs ∧ Renders f ts ∧ period.type = .period

variable (scan : FloatScan) (fl : FloatText)

theorem encodeLoop_period (n i s : ℕ) (buffer : Bytes) {t : Token} {ts : List Token}
    (hp : tokens.drop i = t :: ts) (ht : t.type = .period) :
    encodeLoop cmds scan (n + 1) ⟨⟨tokens, i, s, env⟩, 0, buffer⟩ =
      some ⟨⟨tokens, i + 1, i, env⟩, 0, buffer⟩ := by
  have hget := getProgramToken_eq cmds.evaluateToken (p := ⟨tokens, i, s, env⟩) hp (by simp [ht])
  simp only [encodeLoop, hget, ne_eq, not_true_eq_false, if_false, ht]

/-- The items of a message are written one after another, up to a refused value. -/
theorem encodeItems_presents {p : Program σ} {f : Sml} (hp : Presents p f) (head : MessageHead) :
    ∃ k head' p', ∀ n, encodeItems cmds scan (n + k) head [] p =
      some (head', ⟨p', if f.refused then 1 else 0, f.written⟩) := by
  obtain ⟨tokens, i, s, env⟩ := p
  obtain ⟨hs, ts, period, us, hdrop, hhead, hr, hperiod⟩ := hp
  simp only at hdrop
  obtain ⟨t, vs, hfirst, htext, hvar⟩ := hr.first_token hperiod us
  have hdrop' := drop_add_of_append hdrop
  rw [hfirst] at hdrop
  obtain ⟨head', s', hencode⟩ := encodeHead_tokens cmds tokens env hhead htext hvar head i s hdrop
  cases href : f.refused with
  | true =>
      obtain ⟨k, p', hloop⟩ := encodeLoop_refused cmds tokens env scan hr href (i + hs.length) s' []
        hdrop'
      refine ⟨k + ts.length, head', p', fun n => ?_⟩
      have hrun := hloop (n + ts.length) (by omega)
      rw [List.nil_append] at hrun
      rw [show n + (k + ts.length) = n + ts.length + k by omega]
      simp only [encodeItems, hencode, hrun]
      rfl
  | false =>
      obtain ⟨k, s'', hloop⟩ := encodeLoop_renders cmds tokens env scan hr
        (f.refused_eq_false_iff.1 href) (i + hs.length) s' [] hdrop'
      refine ⟨k + ts.length + 1, head',
        ⟨tokens, i + hs.length + ts.length + 1, i + hs.length + ts.length, env⟩, fun n => ?_⟩
      have hrun := hloop (n + ts.length + 1) (by omega)
      rw [encodeLoop_period cmds tokens env scan _ _ _ _ (drop_add_of_append hdrop') hperiod,
        List.nil_append] at hrun
      rw [show n + (k + ts.length + 1) = n + ts.length + 1 + k by omega,
        Sml.written_of_not_refused href]
      simp only [encodeItems, hencode, hrun]
      rfl

/-- The buffer can count these bytes and their log can be made. -/
def LogRoom (buffer : Bytes) : Prop :=
  buffer.length < 2 ^ 32 ∧ LogFits [⟨0, 0⟩] (walk buffer).1 ∧ (walk buffer).2 ≠ .truncated

/-- The encoder returns 0, whatever the fuel from some point on, and has written the bytes. -/
def Encodes (head : MessageHead) (p : Program σ) (bytes : Bytes) : Prop :=
  ∃ k r, (∀ n, secsEncode cmds scan fl (n + k) head [] p = some (.ok r)) ∧
    r.iret = 0 ∧ r.buffer = bytes

theorem secsEncode_of_encodeItems {fuel : ℕ} {p p' : Program σ} {head head' : MessageHead}
    {iret : ℕ} {buffer : Bytes}
    (h : encodeItems cmds scan fuel head [] p = some (head', ⟨p', iret, buffer⟩)) :
    secsEncode cmds scan fl fuel head [] p =
      some (if 2 ^ 32 ≤ buffer.length then .error .bufferOverflow
        else do
          let log ← makeLog fl buffer (headLog head')
          return ⟨iret, head', buffer, log, p'⟩) := by
  simp only [secsEncode, h]
  rfl

/-- The encoder returns what its main loop ends with, as far as the buffer and the log allow. -/
theorem secsEncode_returns_iff {k iret : ℕ} {p p' : Program σ} {head head' : MessageHead}
    {buffer : Bytes}
    (h : ∀ n, encodeItems cmds scan (n + k) head [] p = some (head', ⟨p', iret, buffer⟩))
    (P : ℕ → Bytes → Prop) :
    (∃ k r, (∀ n, secsEncode cmds scan fl (n + k) head [] p = some (.ok r)) ∧
      P r.iret r.buffer) ↔ LogRoom buffer ∧ P iret buffer := by
  have hrun := fun n => secsEncode_of_encodeItems cmds scan fl (h n)
  constructor
  · rintro ⟨k', r, hr, hP⟩
    have hsame := hr k
    rw [Nat.add_comm, hrun k', Option.some.injEq] at hsame
    split at hsame
    · cases hsame
    · rename_i hlen
      obtain ⟨log, hlog, hresult⟩ := bind_ok_iff.1 hsame
      cases hresult
      have hmake := (makeLog_ok_iff fl buffer (headLog head') (by omega)).1 ⟨log, hlog⟩
      exact ⟨⟨by omega, hmake⟩, hP⟩
  · rintro ⟨⟨hlen, hmake⟩, hP⟩
    obtain ⟨log, hlog⟩ := (makeLog_ok_iff fl buffer (headLog head') hlen).2 hmake
    refine ⟨k, ⟨iret, head', buffer, log, p'⟩, fun n => ?_, hP⟩
    rw [hrun n, if_neg (by omega), hlog]
    rfl

/-- When no value is refused, the encoder succeeds as far as the buffer and the log allow. -/
theorem encodes_stored_iff {p : Program σ} {f : Sml} (hp : Presents p f)
    (hok : f.All fun v => v.rejected = false) (head : MessageHead) (bytes : Bytes) :
    Encodes cmds scan fl head p bytes ↔ LogRoom f.stored ∧ f.stored = bytes := by
  obtain ⟨k, head', p', hitems⟩ := encodeItems_presents cmds scan hp head
  have href := f.refused_eq_false_iff.2 hok
  rw [href, Sml.written_of_not_refused href] at hitems
  have hreturns := secsEncode_returns_iff cmds scan fl hitems fun iret b => iret = 0 ∧ b = bytes
  rw [Encodes, hreturns]
  simp

end

/-- The values have a place in their types, `I8` apart, whose numbers go through an `int`. -/
def Leaf.InRange : Leaf → Prop
  | .integers t vs => t ≠ .signed8 ∧
      ∀ d ∈ vs, t.InRange d.value ∧ (t.signed = false → d.sign = .none)
  | _ => True

theorem Leaf.InRange.kept {v : Leaf} (h : v.InRange) : v.Kept := by
  cases v with
  | integers t vs =>
      obtain ⟨hne, hvs⟩ := h
      intro d hd
      obtain ⟨hrange, hsign⟩ := hvs d hd
      cases ht : t.signed with
      | false => exact Decimal.kept_unsigned ht (hsign ht) hrange
      | true =>
          refine Decimal.kept_signed ht hrange ?_
          have hwidth : (256 : ℤ) ^ t.width ≤ 2 ^ 32 := by
            cases t <;> simp_all [IntegerType.signed, IntegerType.width, IntegerType.elementType,
              ElementType.width]
          simp only [IntegerType.InRange, ht, if_true] at hrange
          generalize (256 : ℤ) ^ t.width = room at hwidth hrange
          constructor <;> omega
  | _ => trivial

theorem Sml.stored_exact {f : Sml} (hsizes : f.SizesFit) (hrange : f.All Leaf.InRange) :
    f.All (fun v => v.rejected = false) ∧ f.stored = f.encode :=
  ⟨hrange.mono fun _ h => h.kept.rejected,
    Sml.stored_eq_encode (hrange.mono fun _ h => h.kept) hsizes⟩

/-- There is room for an encoding when every item is inside at most 22 lists and the buffer can
count the bytes. -/
theorem Sml.logRoom_iff {f : Sml} (hsizes : f.SizesFit) :
    LogRoom f.encode ↔ f.NestingFits 22 0 ∧ f.encode.length < 2 ^ 32 := by
  rw [LogRoom, Sml.walk_encode_all hsizes, and_comm]
  simp only [ne_eq, reduceCtorEq, not_false_eq_true, and_true]
  refine and_congr_left fun hlen => ?_
  have hopen : ∀ i, 0 < i → i < f.count → sub32 0 i ≠ 0 := by
    intro i hi hlt
    have := (Sml.items_encode hsizes).two_mul_le
    rw [sub32_zero_left hi (by omega)]
    omega
  have hfits := logFits_headers hsizes ⟨0, 0⟩ [] [] hopen
  rw [List.append_nil] at hfits
  simpa [LogFits] using hfits

/-- A message is encoded exactly when every item is inside at most 22 lists and the buffer can
count the bytes. -/
theorem secsEncode_exact_iff {σ : Type} (cmds : EncodeCommands σ) (scan : FloatScan)
    (fl : FloatText) (head : MessageHead) (p : Program σ) (f : Sml) (hp : Presents p f)
    (hsizes : f.SizesFit) (hrange : f.All Leaf.InRange) :
    Encodes cmds scan fl head p f.encode ↔
      f.NestingFits 22 0 ∧ f.encode.length < 2 ^ 32 := by
  obtain ⟨hok, hstored⟩ := Sml.stored_exact hsizes hrange
  rw [encodes_stored_iff cmds scan fl hp hok, hstored, Sml.logRoom_iff hsizes, and_iff_left rfl]

/-! ## Two messages -/

theorem isWord_word (text : Bytes) : (word text).IsWord := .inr (.inr (.inl rfl))

def lessThan : Token := mark .lessThan rfl

def greaterThan : Token := mark .greaterThan rfl

theorem cstr_ne_nil {s : String} (h : s.toList ≠ []) : cstr s ≠ [] := by
  simpa [cstr] using h

/-- The program `S1F1 0` with the tokens of the items and a period. -/
def s1f1 (ts : List Token) : Program Unit :=
  ⟨[word (cstr "S1F1"), word (cstr "0")] ++ (ts ++ [mark .period rfl]), 0, 0, ()⟩

theorem numberTokens_s1f1 : NumberTokens (word (cstr "S1F1")) (word (cstr "0")) where
  sf_word := isWord_word _
  dev_word := isWord_word _
  sf_text := ⟨cstr "1", cstr "1", rfl, cstr_ne_nil (List.cons_ne_nil _ _), isDigit_of_all rfl,
    cstr_ne_nil (List.cons_ne_nil _ _), isDigit_of_all rfl⟩
  dev_text := ⟨cstr_ne_nil (List.cons_ne_nil _ _), isDigit_of_all rfl⟩

theorem presents_s1f1 {f : Sml} {ts : List Token} (hr : Renders f ts) : Presents (s1f1 ts) f :=
  ⟨_, ts, _, [], rfl, .plain numberTokens_s1f1, hr, rfl⟩

def nested : ℕ → Sml
  | 0 => .leaf (.ascii []) .done
  | n + 1 => .list (nested n) .done

def nestedTokens : ℕ → List Token
  | 0 => lessThan :: word (cstr "A") :: ([] ++ greaterThan :: [])
  | n + 1 => lessThan :: word (cstr "L") :: (nestedTokens n ++ greaterThan :: [])

theorem nested_count (n : ℕ) : (nested n).count = 1 := by
  cases n <;> rfl

theorem nested_renders (n : ℕ) : Renders (nested n) (nestedTokens n) := by
  induction n with
  | zero =>
      have hnone : ∀ w ∈ ([] : List Token), w.IsWord := by simp
      have hts : LeafTokens (.ascii []) [] := .ascii hnone
      exact .leaf rfl (isWord_word _) rfl rfl hts .done
  | succ n ih => exact .list rfl (isWord_word _) rfl rfl ih .done

theorem nested_fits (n : ℕ) : (nested n).SizesFit ∧ (nested n).All Leaf.InRange := by
  induction n with
  | zero => exact ⟨⟨by decide, trivial⟩, trivial, trivial⟩
  | succ n ih =>
      refine ⟨⟨?_, ih.1, trivial⟩, ih.2, trivial⟩
      rw [nested_count]
      decide

theorem le_of_nested_nestingFits {bound level n : ℕ}
    (h : (nested n).NestingFits bound level) : level + n ≤ bound := by
  induction n generalizing level with
  | zero => exact h.1
  | succ n ih =>
      have := ih h.2.1
      omega

def noCommands : EncodeCommands Unit := ⟨fun _ env => ([], env), fun p => (1, p), fun p => (1, p)⟩

def noScan : FloatScan := ⟨fun _ => none, fun _ => [], fun _ => none⟩

def noFloats : FloatText := ⟨fun _ => [], fun _ => []⟩

/-- The log has no room for an item inside 23 lists. -/
theorem secsEncode_not_always_exact :
    ¬ ∀ {σ : Type} (cmds : EncodeCommands σ) (scan : FloatScan) (fl : FloatText)
      (head : MessageHead) (p : Program σ) (f : Sml), Presents p f → f.SizesFit →
      f.All Leaf.InRange → Encodes cmds scan fl head p f.encode := by
  intro hall
  obtain ⟨hsizes, hrange⟩ := nested_fits 23
  have hp := presents_s1f1 (nested_renders 23)
  have hencodes := hall noCommands noScan noFloats ⟨0, 0, 0, 0⟩ _ _ hp hsizes hrange
  obtain ⟨hok, hstored⟩ := Sml.stored_exact hsizes hrange
  rw [encodes_stored_iff _ _ _ hp hok, hstored, Sml.logRoom_iff hsizes] at hencodes
  exact absurd (le_of_nested_nestingFits hencodes.1.1) (by decide)

def threeHundred : Decimal :=
  ⟨.none, cstr "300", cstr_ne_nil (List.cons_ne_nil _ _), isDigit_of_all rfl⟩

def minusFive : Decimal :=
  ⟨.token, cstr "5", cstr_ne_nil (List.cons_ne_nil _ _), isDigit_of_all rfl⟩

/-- `< L < U2 300 > < I1 -5 > >`. -/
def sampleItems : Sml :=
  .list (.leaf (.integers .unsigned2 [threeHundred])
    (.leaf (.integers .signed1 [minusFive]) .done)) .done

def sampleTokens : List Token :=
  lessThan :: word (cstr "L") ::
    ((lessThan :: word (cstr "U2") :: ([word (cstr "300")] ++ greaterThan ::
      (lessThan :: word (cstr "I1") :: ([mark .minus rfl, word (cstr "5")] ++ greaterThan :: [])))) ++
    greaterThan :: [])

theorem sample_renders : Renders sampleItems sampleTokens :=
  .list rfl (isWord_word _) rfl rfl
    (.leaf rfl (isWord_word _) rfl rfl (.integers (.plain rfl (isWord_word _) rfl .nil))
      (.leaf rfl (isWord_word _) rfl rfl
        (.integers (.minusToken rfl rfl (isWord_word _) rfl .nil)) .done)) .done

theorem sample_sizesFit : sampleItems.SizesFit := by
  simp [Sml.SizesFit, sampleItems]
  decide

theorem secsEncode_exact_sample :
    Encodes noCommands noScan noFloats ⟨0, 0, 0, 0⟩ (s1f1 sampleTokens)
      [0x01, 0x02, 0xA9, 0x02, 0x01, 0x2C, 0x65, 0x01, 0xFB] := by
  have hrange : sampleItems.All Leaf.InRange := by
    refine ⟨⟨⟨by decide, ?_⟩, ⟨by decide, ?_⟩, trivial⟩, trivial⟩
    · simp
      decide
    · simp
      decide
  exact (secsEncode_exact_iff noCommands noScan noFloats ⟨0, 0, 0, 0⟩ (s1f1 sampleTokens) sampleItems
    (presents_s1f1 sample_renders) sample_sizesFit hrange).2
    ⟨by simp [Sml.NestingFits, sampleItems], by decide⟩

end ScOpen
