import ScOpen.MemoryBytes
import ScOpen.Substrings

/-!
# Options

The options of a connection are one text, in which an option is looked up by the text `key=`. What
stands behind the first place of that text is copied up to a blank, or up to the quote that closes
one.
-/

namespace ScOpen

/-- What `get_opt()` returns; `FATAL` ends the process, and `overrun` reads behind the memory. -/
inductive OptResult where
  | value (text : Bytes)
  | fatal
  | overrun

def optLoop : ℕ → Bool → Bytes → Bytes → OptResult
  | 0, _, _, _ => .fatal
  | _ + 1, _, [], _ => .overrun
  | n + 1, true, c :: ptr, value =>
      if c = chr '"' then .value (cString value) else optLoop n true ptr (value ++ [c])
  | n + 1, false, c :: ptr, value =>
      if c = chr '"' then optLoop n true ptr value
      else if c = chr ' ' ∨ c = 0 then .value (cString value)
      else optLoop n false ptr (value ++ [c])

def getOpt (options option : Bytes) : OptResult :=
  match Substrings.behind (cString option) (cString options) with
  | none => .value []
  | some ptr => optLoop 128 false (ptr ++ options.drop (cString options).length) []

/-! ## Lists of options -/

def PlainChar (c : UInt8) : Prop := c ≠ chr ' ' ∧ c ≠ chr '"' ∧ c ≠ 0

instance : DecidablePred PlainChar := fun _ => inferInstanceAs (Decidable (_ ∧ _ ∧ _))

structure OptKey where
  text : Bytes
  ne : text ≠ []
  plain : ∀ c ∈ text, PlainChar c ∧ c ≠ chr '='

structure OptPair where
  key : OptKey
  quoted : Bool
  value : Bytes
  value_plain : quoted = false → ∀ c ∈ value, PlainChar c
  value_quoted : quoted = true → ∀ c ∈ value, c ≠ chr '"' ∧ c ≠ 0

def OptKey.option (k : OptKey) : Bytes := k.text ++ [chr '=']

def OptPair.valueText (p : OptPair) : Bytes :=
  if p.quoted then chr '"' :: (p.value ++ [chr '"']) else p.value

def OptPair.text (p : OptPair) : Bytes := p.key.text ++ chr '=' :: p.valueText

inductive Laid : List OptPair → Bytes → Prop
  | nil (n : ℕ) : Laid [] (List.replicate n (chr ' '))
  | cons (n : ℕ) (p : OptPair) {ps : List OptPair} {text : Bytes} (h : Laid ps text)
      (hblank : ∀ c, text.head? = some c → c = chr ' ') :
      Laid (p :: ps) (List.replicate n (chr ' ') ++ (p.text ++ text))

/-- The value of the first pair with the key, and empty if there is none. -/
def optValue (pairs : List OptPair) (key : OptKey) : Bytes :=
  ((pairs.find? fun p => p.key.text = key.text).map OptPair.value).getD []

/-- The pair's key ends with the key, or its value contains the key and an equals sign. -/
def OptPair.Mentions (key : OptKey) (p : OptPair) : Prop :=
  key.text <:+ p.key.text ∨ key.option <:+: p.value

instance (key : OptKey) (p : OptPair) : Decidable (p.Mentions key) :=
  inferInstanceAs (Decidable (_ ∨ _))

/-- The value fits into the 128 turns of the loop, of which an opening quote takes one. -/
def OptPair.Fits (p : OptPair) : Prop :=
  if p.quoted then p.value.length < 127 else p.value.length < 128

instance (p : OptPair) : Decidable p.Fits :=
  inferInstanceAs (Decidable (if p.quoted then _ else _))

def Reads (text value : Bytes) : Prop :=
  (∃ rest, text = value ++ rest ∧ (∀ c ∈ value, PlainChar c) ∧
    (∀ c, rest.head? = some c → c = chr ' ') ∧ value.length < 128) ∨
  ∃ a q rest, text = a ++ chr '"' :: (q ++ chr '"' :: rest) ∧ (∀ c ∈ a, PlainChar c) ∧
    chr '"' ∉ q ∧ value = a ++ q ∧ value.length < 127

/-- The first pair that mentions the key is its own one, with a value that fits; or another one,
where the right value happens to stand behind the first `key=` of the text. -/
def OptRight (pairs : List OptPair) (text : Bytes) (key : OptKey) : Prop :=
  ∀ p, pairs.find? (fun p => p.Mentions key) = some p →
    (p.key.text = key.text ∧ p.Fits) ∨
      (p.key.text ≠ key.text ∧ ∃ front rest, text = front ++ (key.option ++ rest) ∧
        (∀ front' rest', text = front' ++ (key.option ++ rest') →
          front.length ≤ front'.length) ∧ Reads rest (optValue pairs key))

section

variable {key : OptKey} {p : OptPair} {text rest a q : Bytes} {n : ℕ}

/-- Two texts are split at their first equals sign in one way only. -/
theorem eq_of_append_eq {c : UInt8} {k k' r r' : Bytes} (hk : c ∉ k) (hk' : c ∉ k')
    (h : k ++ c :: r = k' ++ c :: r') : k = k' := by
  induction k generalizing k' with
  | nil =>
      cases k' with
      | nil => rfl
      | cons d k' =>
          cases h
          exact absurd List.mem_cons_self hk'
  | cons d k ih =>
      cases k' with
      | nil =>
          cases h
          exact absurd List.mem_cons_self hk
      | cons e k' =>
          obtain ⟨rfl, hrest⟩ := List.cons.inj h
          rw [ih (fun hmem => hk (List.mem_cons_of_mem _ hmem))
            (fun hmem => hk' (List.mem_cons_of_mem _ hmem)) hrest]

theorem OptKey.option_ne (key : OptKey) : key.option ≠ [] :=
  List.append_ne_nil_of_right_ne_nil _ (List.cons_ne_nil _ _)

theorem OptKey.option_plain (key : OptKey) {c : UInt8} (hc : c ∈ key.option) : PlainChar c := by
  rcases List.mem_append.1 hc with hc | hc
  · exact (key.plain c hc).1
  · rw [List.mem_singleton.1 hc]
    exact ⟨by decide, by decide, by decide⟩

theorem OptKey.option_head (key : OptKey) {c : UInt8} (hc : key.option.head? = some c) :
    c ∈ key.text := by
  obtain ⟨d, ds, hd⟩ := List.exists_cons_of_ne_nil key.ne
  rw [OptKey.option, hd] at hc
  cases hc
  rw [hd]
  exact List.mem_cons_self

/-! ## Where the key stands -/

theorem behind_blanks : Substrings.behind key.option (List.replicate n (chr ' ') ++ text) =
    Substrings.behind key.option text := by
  induction n with
  | zero => rfl
  | succ n ih =>
      rw [List.replicate_succ, List.cons_append, Substrings.behind_cons_head _ key.option_ne, ih]
      intro hhead
      exact (key.plain _ (key.option_head hhead)).1.1 rfl

theorem behind_quote : Substrings.behind key.option (chr '"' :: text) =
    Substrings.behind key.option text := by
  refine Substrings.behind_cons_head ?_ key.option_ne
  intro hhead
  exact (key.plain _ (key.option_head hhead)).1.2.1 rfl

/-- In front of the equals sign of a pair the key stands only at the end of the pair's key. -/
theorem behind_key {k : Bytes} (hk : chr '=' ∉ k) :
    Substrings.behind key.option (k ++ chr '=' :: text) =
      if key.text <:+ k then some text else Substrings.behind key.option text := by
  have hkey : chr '=' ∉ key.text := fun h => (key.plain _ h).2 rfl
  induction k with
  | nil =>
      rw [if_neg fun h => key.ne (List.suffix_nil.1 h)]
      refine Substrings.behind_cons_head (fun hhead => ?_) key.option_ne
      exact hkey (key.option_head hhead)
  | cons c k ih =>
      have hk' : chr '=' ∉ k := fun h => hk (List.mem_cons_of_mem _ h)
      by_cases hsame : key.text = c :: k
      · rw [if_pos (by rw [hsame])]
        have hstart : key.option ++ text = c :: k ++ chr '=' :: text := by
          rw [OptKey.option, hsame, List.append_assoc]
          rfl
        rw [← hstart, Substrings.behind_at_start (List.prefix_append _ _), List.drop_left]
      · have hnot : ¬ key.option <+: c :: (k ++ chr '=' :: text) := by
          rintro ⟨more, hmore⟩
          rw [OptKey.option, List.append_assoc] at hmore
          exact hsame (eq_of_append_eq hkey hk hmore)
        rw [List.cons_append, Substrings.behind_cons_neg hnot, ih hk']
        simp only [List.suffix_cons_iff, hsame, false_or]

/-- A blank or nothing behind a value keeps the key from going over it. -/
theorem bars_of_blank (h : ∀ c, rest.head? = some c → c = chr ' ') :
    Substrings.Bars key.option rest := by
  intro c hc hmem
  exact (key.option_plain hmem).1 (h c hc)

theorem behind_value (hblank : ∀ c, rest.head? = some c → c = chr ' ') :
    ∃ between, Substrings.behind key.option (p.valueText ++ rest) =
      ((Substrings.behind key.option p.value).map fun found => found ++ (between ++ rest)).or
        (Substrings.behind key.option rest) := by
  have hquote : chr '"' ∉ key.option := fun h => (key.option_plain h).2.1 rfl
  cases hquoted : p.quoted with
  | false =>
      refine ⟨[], ?_⟩
      rw [OptPair.valueText, hquoted]
      exact Substrings.behind_append key.option_ne (bars_of_blank hblank)
  | true =>
      refine ⟨[chr '"'], ?_⟩
      have htext : p.valueText ++ rest = chr '"' :: (p.value ++ chr '"' :: rest) := by
        rw [OptPair.valueText, hquoted]
        exact congrArg _ (List.append_assoc _ _ _)
      rw [htext, behind_quote,
        Substrings.behind_append key.option_ne (Substrings.bars_cons hquote), behind_quote]
      rfl

theorem OptPair.behind_text (p : OptPair) : Substrings.behind key.option (p.text ++ rest) =
    if key.text <:+ p.key.text then some (p.valueText ++ rest)
    else Substrings.behind key.option (p.valueText ++ rest) := by
  have hkey : chr '=' ∉ p.key.text := fun h => (p.key.plain _ h).2 rfl
  have htext : p.text ++ rest = p.key.text ++ chr '=' :: (p.valueText ++ rest) :=
    List.append_assoc _ _ _
  rw [htext, behind_key hkey]

/-- A pair that does not mention the key is passed over. -/
theorem behind_passed (hblank : ∀ c, rest.head? = some c → c = chr ' ')
    (h : ¬ p.Mentions key) : Substrings.behind key.option (p.text ++ rest) =
      Substrings.behind key.option rest := by
  obtain ⟨hkey, hvalue⟩ := not_or.1 h
  obtain ⟨between, hbehind⟩ := @behind_value key p rest hblank
  rw [← Substrings.behind_isSome, Bool.not_eq_true, Option.isSome_eq_false_iff,
    Option.isNone_iff_eq_none] at hvalue
  rw [p.behind_text, if_neg hkey, hbehind, hvalue]
  rfl

theorem behind_mentioned (hblank : ∀ c, rest.head? = some c → c = chr ' ')
    (h : p.Mentions key) : (Substrings.behind key.option (p.text ++ rest)).isSome := by
  rw [p.behind_text]
  by_cases hkey : key.text <:+ p.key.text
  · rw [if_pos hkey]
    rfl
  · obtain ⟨between, hbehind⟩ := @behind_value key p rest hblank
    have hvalue := h.resolve_left hkey
    obtain ⟨found, hfound⟩ := Option.isSome_iff_exists.1 (Substrings.behind_isSome.2 hvalue)
    rw [if_neg hkey, hbehind, hfound]
    rfl

/-- In a list of options the key stands first in the first pair that mentions it. -/
theorem Laid.behind {pairs : List OptPair} (h : Laid pairs text) :
    (pairs.find? (fun p => p.Mentions key) = none →
      Substrings.behind key.option text = none) ∧
    ∀ p, pairs.find? (fun p => p.Mentions key) = some p →
      (Substrings.behind key.option text).isSome ∧
        (p.key.text = key.text → ∃ rest, (∀ c, rest.head? = some c → c = chr ' ') ∧
          Substrings.behind key.option text = some (p.valueText ++ rest)) := by
  induction h with
  | nil n =>
      refine ⟨fun _ => ?_, fun p hp => by cases hp⟩
      have hnil : Substrings.behind key.option [] = none := if_neg key.option_ne
      rw [← List.append_nil (List.replicate n (chr ' ')), behind_blanks, hnil]
  | cons n p h hblank ih =>
      rw [behind_blanks]
      by_cases hmentions : p.Mentions key
      · have hfind : ∀ ps : List OptPair,
            (p :: ps).find? (fun p => p.Mentions key) = some p := fun ps =>
          List.find?_cons_of_pos (decide_eq_true hmentions)
        rw [hfind]
        refine ⟨fun hnone => (by cases hnone), fun p' hp' => ?_⟩
        cases hp'
        refine ⟨behind_mentioned hblank hmentions, fun hsame => ⟨_, hblank, ?_⟩⟩
        rw [p.behind_text, if_pos (hsame ▸ List.suffix_rfl)]
      · rw [List.find?_cons_of_neg (by rw [decide_eq_true_eq]; exact hmentions),
          behind_passed hblank hmentions]
        exact ih

/-! ## What is read -/

theorem optLoop_plain (h : ∀ c ∈ a, PlainChar c) (n : ℕ) (ptr value : Bytes) :
    optLoop (a.length + n) false (a ++ ptr) value = optLoop n false ptr (value ++ a) := by
  induction a generalizing value with
  | nil => simp only [List.length_nil, Nat.zero_add, List.nil_append, List.append_nil]
  | cons c a ih =>
      obtain ⟨hblank, hquote, hzero⟩ := h c List.mem_cons_self
      have hturns : (c :: a).length + n = a.length + n + 1 := by
        rw [List.length_cons]
        omega
      rw [hturns, List.cons_append, optLoop, if_neg hquote,
        if_neg fun hstop => hstop.elim hblank hzero,
        ih (fun d hd => h d (List.mem_cons_of_mem c hd)), List.append_assoc]
      rfl

theorem optLoop_plain_fatal (h : ∀ c ∈ a, PlainChar c) (hn : n ≤ a.length) (ptr value : Bytes) :
    optLoop n false (a ++ ptr) value = .fatal := by
  have hfront : ∀ c ∈ a.take n, PlainChar c := fun c hc => h c (List.mem_of_mem_take hc)
  have hlength : (a.take n).length = n := List.length_take_of_le hn
  have hcopy := optLoop_plain hfront 0 (a.drop n ++ ptr) value
  rw [hlength, ← List.append_assoc, List.take_append_drop] at hcopy
  exact hcopy

theorem optLoop_quoted (h : chr '"' ∉ q) (n : ℕ) (ptr value : Bytes) :
    optLoop (q.length + n) true (q ++ ptr) value = optLoop n true ptr (value ++ q) := by
  induction q generalizing value with
  | nil => simp only [List.length_nil, Nat.zero_add, List.nil_append, List.append_nil]
  | cons c q ih =>
      have hquote : c ≠ chr '"' := fun heq => h (heq ▸ List.mem_cons_self)
      have hturns : (c :: q).length + n = q.length + n + 1 := by
        rw [List.length_cons]
        omega
      rw [hturns, List.cons_append, optLoop, if_neg hquote,
        ih fun hmem => h (List.mem_cons_of_mem c hmem), List.append_assoc]
      rfl

theorem optLoop_quoted_fatal (h : chr '"' ∉ q) (hn : n ≤ q.length) (ptr value : Bytes) :
    optLoop n true (q ++ ptr) value = .fatal := by
  have hfront : chr '"' ∉ q.take n := fun hmem => h (List.mem_of_mem_take hmem)
  have hlength : (q.take n).length = n := List.length_take_of_le hn
  have hcopy := optLoop_quoted hfront 0 (q.drop n ++ ptr) value
  rw [hlength, ← List.append_assoc, List.take_append_drop] at hcopy
  exact hcopy

/-- A value that a blank or the end of the options ends. -/
theorem optLoop_to_blank (ha : ∀ c ∈ a, PlainChar c)
    (hrest : ∀ c, rest.head? = some c → c = chr ' ') (mem : Bytes) :
    optLoop 128 false (a ++ (rest ++ 0 :: mem)) [] =
      if a.length < 128 then .value a else .fatal := by
  split_ifs with hlength
  · obtain ⟨n, hn⟩ : ∃ n, 128 = a.length + (n + 1) := ⟨127 - a.length, by omega⟩
    have hzero : cString a = a := cString_eq_self fun hmem => (ha 0 hmem).2.2 rfl
    rw [hn, optLoop_plain ha, List.nil_append]
    cases rest with
    | nil =>
        rw [List.nil_append, optLoop, if_neg (by decide), if_pos (.inr rfl), hzero]
    | cons c rest =>
        obtain rfl := hrest c rfl
        rw [List.cons_append, optLoop, if_neg (by decide), if_pos (.inl rfl), hzero]
  · exact optLoop_plain_fatal ha (Nat.le_of_not_lt hlength) _ _

/-- A value with a part between quotes. -/
theorem optLoop_to_quote (ha : ∀ c ∈ a, PlainChar c) (hq : chr '"' ∉ q) (hzero : 0 ∉ q)
    (mem : Bytes) :
    optLoop 128 false (a ++ chr '"' :: (q ++ chr '"' :: mem)) [] =
      if (a ++ q).length < 127 then .value (a ++ q) else .fatal := by
  have htext : 0 ∉ a ++ q := fun hmem => (List.mem_append.1 hmem).elim
    (fun ha' => (ha 0 ha').2.2 rfl) hzero
  rw [List.length_append]
  split_ifs with hlength
  · obtain ⟨n, hn⟩ : ∃ n, 128 = a.length + (q.length + (n + 1) + 1) :=
      ⟨126 - (a.length + q.length), by omega⟩
    rw [hn, optLoop_plain ha, optLoop, if_pos rfl, optLoop_quoted hq, optLoop, if_pos rfl,
      List.nil_append, cString_eq_self htext]
  · by_cases hplain : 128 ≤ a.length
    · exact optLoop_plain_fatal ha hplain _ _
    · obtain ⟨n, hn⟩ : ∃ n, 128 = a.length + (n + 1) := ⟨127 - a.length, by omega⟩
      rw [hn, optLoop_plain ha, optLoop, if_pos rfl]
      exact optLoop_quoted_fatal hq (by omega) _ _

/-- A quote that is not closed is looked for behind the options. -/
theorem optLoop_open (ha : ∀ c ∈ a, PlainChar c) (hq : chr '"' ∉ q) :
    optLoop 128 false (a ++ chr '"' :: (q ++ 0 :: List.replicate 128 0)) [] = .fatal := by
  by_cases hplain : 128 ≤ a.length
  · exact optLoop_plain_fatal ha hplain _ _
  · obtain ⟨n, hn⟩ : ∃ n, 128 = a.length + (n + 1) := ⟨127 - a.length, by omega⟩
    have hbehind : chr '"' ∉ q ++ List.replicate 129 0 := by
      intro hmem
      rcases List.mem_append.1 hmem with hmem | hmem
      · exact hq hmem
      · exact absurd (List.eq_of_mem_replicate hmem) (by decide)
    have htext : q ++ 0 :: List.replicate 128 0 = (q ++ List.replicate 129 0) ++ [] :=
      (List.append_nil _).symm
    rw [htext, hn, optLoop_plain ha, optLoop, if_pos rfl]
    refine optLoop_quoted_fatal hbehind ?_ _ _
    rw [List.length_append, List.length_replicate]
    omega

/-- Whatever stands behind the options, the value is read just when it stands at the start. -/
theorem reads_iff (htext : 0 ∉ text) (value : Bytes) :
    (∀ mem, optLoop 128 false (text ++ 0 :: mem) [] = .value value) ↔ Reads text value := by
  constructor
  · intro hread
    obtain ⟨a, hsplit, ha, hstop⟩ :=
      exists_dropWhile (fun c => decide (c ≠ chr ' ' ∧ c ≠ chr '"')) text
    have hplain : ∀ c ∈ a, PlainChar c := by
      intro c hc
      obtain ⟨hblank, hquote⟩ := of_decide_eq_true (ha c hc)
      refine ⟨hblank, hquote, fun hzero => htext ?_⟩
      rw [hsplit, ← hzero]
      exact List.mem_append_left _ hc
    generalize text.dropWhile _ = rest at hsplit hstop
    have hblank_or : (∀ c, rest.head? = some c → c = chr ' ') ∨
        ∃ behind, rest = chr '"' :: behind := by
      cases rest with
      | nil => exact .inl fun c hc => by cases hc
      | cons c r =>
          by_cases hquote : c = chr '"'
          · exact .inr ⟨r, by rw [hquote]⟩
          · refine .inl fun d hd => ?_
            cases hd
            by_contra hblank
            exact absurd (hstop c r rfl) (by simp [hblank, hquote])
    rcases hblank_or with hblank | ⟨behind, rfl⟩
    · have hvalue := hread []
      rw [hsplit, List.append_assoc, optLoop_to_blank hplain hblank] at hvalue
      split_ifs at hvalue with hlength
      cases hvalue
      exact .inl ⟨rest, hsplit, hplain, hblank, hlength⟩
    · obtain ⟨q, hq, hquoted, hclose⟩ := exists_dropWhile (fun c => decide (c ≠ chr '"')) behind
      have hnotin : chr '"' ∉ q := fun hmem => of_decide_eq_true (hquoted _ hmem) rfl
      generalize behind.dropWhile _ = after at hq hclose
      cases after with
      | nil =>
          have hvalue := hread (List.replicate 128 0)
          rw [hsplit, hq, List.append_nil, List.append_assoc, List.cons_append,
            optLoop_open hplain hnotin] at hvalue
          cases hvalue
      | cons c after =>
          have hc : c = chr '"' := by
            by_contra hne
            exact absurd (hclose c after rfl) (by simp [hne])
          subst hc
          have hzero : 0 ∉ q := fun hmem => htext (by simp [hsplit, hq, hmem])
          have hvalue := hread []
          rw [hsplit, hq, List.append_assoc, List.cons_append, List.append_assoc,
            List.cons_append, optLoop_to_quote hplain hnotin hzero] at hvalue
          split_ifs at hvalue with hlength
          cases hvalue
          exact .inr ⟨a, q, after, by rw [hsplit, hq], hplain, hnotin, rfl, hlength⟩
  · rintro (⟨rest, rfl, hplain, hblank, hlength⟩ | ⟨a, q, rest, rfl, hplain, hq, rfl, hlength⟩) mem
    · rw [List.append_assoc, optLoop_to_blank hplain hblank, if_pos hlength]
    · have hzero : 0 ∉ q := fun hmem => htext (by simp [hmem])
      rw [List.append_assoc, List.cons_append, List.append_assoc, List.cons_append,
        optLoop_to_quote hplain hq hzero, if_pos hlength]

/-- The value of a pair is read when it fits. -/
theorem optLoop_pair (hblank : ∀ c, rest.head? = some c → c = chr ' ') (mem : Bytes) :
    optLoop 128 false (p.valueText ++ rest ++ 0 :: mem) [] = .value p.value ↔ p.Fits := by
  rw [List.append_assoc, OptPair.Fits, OptPair.valueText]
  cases hquoted : p.quoted with
  | false =>
      have hread := @optLoop_to_blank rest p.value (p.value_plain hquoted) hblank mem
      simp only [Bool.false_eq_true, if_false]
      rw [hread]
      split_ifs with hlength
      · exact iff_of_true rfl hlength
      · exact iff_of_false (fun h => by cases h) hlength
  | true =>
      have hvalue := p.value_quoted hquoted
      have hread := @optLoop_to_quote [] p.value (fun c hc => absurd hc List.not_mem_nil)
        (fun hmem => (hvalue _ hmem).1 rfl) (fun hmem => (hvalue _ hmem).2 rfl)
        (rest ++ 0 :: mem)
      simp only [if_true, List.cons_append, List.append_assoc, List.nil_append] at hread ⊢
      rw [hread]
      split_ifs with hlength
      · exact iff_of_true rfl hlength
      · exact iff_of_false (fun h => by cases h) hlength

/-! ## The option that is found -/

theorem Laid.noZero {pairs : List OptPair} (h : Laid pairs text) : 0 ∉ text := by
  induction h with
  | nil n =>
      intro hmem
      exact absurd (List.eq_of_mem_replicate hmem) (by decide)
  | cons n p h hblank ih =>
      intro hmem
      rcases List.mem_append.1 hmem with hmem | hmem
      · exact absurd (List.eq_of_mem_replicate hmem) (by decide)
      rcases List.mem_append.1 hmem with hmem | hmem
      · rcases List.mem_append.1 hmem with hmem | hmem
        · exact (p.key.plain 0 hmem).1.2.2 rfl
        rcases List.mem_cons.1 hmem with heq | hmem
        · exact absurd heq (by decide)
        rw [OptPair.valueText] at hmem
        split_ifs at hmem with hquoted
        · rcases List.mem_cons.1 hmem with heq | hmem
          · exact absurd heq (by decide)
          rcases List.mem_append.1 hmem with hmem | hmem
          · exact (p.value_quoted hquoted 0 hmem).2 rfl
          · exact absurd (List.mem_singleton.1 hmem) (by decide)
        · exact (p.value_plain (Bool.not_eq_true _ ▸ hquoted) 0 hmem).2.2 rfl
      · exact ih hmem

theorem getOpt_eq (htext : 0 ∉ text) (key : OptKey) (mem : Bytes) :
    getOpt (text ++ 0 :: mem) key.option =
      match Substrings.behind key.option text with
      | none => .value []
      | some ptr => optLoop 128 false (ptr ++ 0 :: mem) [] := by
  have hoption : cString key.option = key.option :=
    cString_eq_self fun hmem => (key.option_plain hmem).2.2 rfl
  rw [getOpt, hoption, cString_zero htext, List.drop_left]

/-- A pair with the key mentions it. -/
theorem OptPair.mentions_self (h : p.key.text = key.text) : p.Mentions key :=
  .inl (h ▸ List.suffix_rfl)

/-- The value of a key that the first pair mentioning it has is that pair's. -/
theorem optValue_first {pairs : List OptPair}
    (hfind : pairs.find? (fun p => p.Mentions key) = some p) (hkey : p.key.text = key.text) :
    optValue pairs key = p.value := by
  obtain ⟨hmentions, front, back, rfl, hfront⟩ := List.find?_eq_some_iff_append.1 hfind
  have hvalue : (front ++ p :: back).find? (fun p => p.key.text = key.text) = some p := by
    refine List.find?_eq_some_iff_append.2 ⟨decide_eq_true hkey, front, back, rfl, ?_⟩
    intro q hq
    have hnot := hfront q hq
    rw [Bool.not_eq_true', decide_eq_false_iff_not] at hnot ⊢
    exact fun hsame => hnot (OptPair.mentions_self hsame)
  rw [optValue, hvalue]
  rfl

theorem optValue_none {pairs : List OptPair}
    (hfind : pairs.find? (fun p => p.Mentions key) = none) : optValue pairs key = [] := by
  have hvalue : pairs.find? (fun p => p.key.text = key.text) = none := by
    refine List.find?_eq_none.2 fun q hq hsame => ?_
    have hnot := List.find?_eq_none.1 hfind q hq
    exact hnot (decide_eq_true (OptPair.mentions_self (of_decide_eq_true hsame)))
  rw [optValue, hvalue]
  rfl

/-- An option that is looked up in a list of options is the value of the key, and empty if the key
is not in the list, just when the first pair that mentions the key is its own one and the value
fits, or the value happens to stand behind the first mention. -/
theorem get_opt_right_iff {pairs : List OptPair} (h : Laid pairs text) (key : OptKey) :
    (∀ mem, getOpt (text ++ 0 :: mem) key.option = .value (optValue pairs key)) ↔
      OptRight pairs text key := by
  obtain ⟨habsent, hpresent⟩ := @Laid.behind key text pairs h
  simp only [getOpt_eq h.noZero key]
  unfold OptRight
  cases hfind : pairs.find? fun p => p.Mentions key with
  | none =>
      rw [habsent hfind, optValue_none hfind]
      exact iff_of_true (fun _ => rfl) fun p hp => by cases hp
  | some p =>
      obtain ⟨hsome, hown⟩ := hpresent p hfind
      have hforall : ∀ {P : OptPair → Prop}, (∀ q, some p = some q → P q) ↔ P p := by
        intro P
        refine ⟨fun hall => hall p rfl, fun hp q hq => ?_⟩
        cases hq
        exact hp
      rw [hforall]
      by_cases hkey : p.key.text = key.text
      · obtain ⟨rest, hblank, hbehind⟩ := hown hkey
        rw [hbehind, optValue_first hfind hkey]
        simp only [optLoop_pair hblank, hkey, true_and, ne_eq, not_true_eq_false, false_and,
          or_false, forall_const]
      · obtain ⟨found, hfound⟩ := Option.isSome_iff_exists.1 hsome
        have hfirst := Substrings.behind_eq_some_iff.1 hfound
        have hzero : 0 ∉ found := by
          obtain ⟨front, htext, -⟩ := hfirst
          intro hmem
          refine h.noZero ?_
          rw [htext]
          exact List.mem_append_right _ (List.mem_append_right _ hmem)
        rw [hfound]
        refine (reads_iff hzero _).trans ?_
        constructor
        · intro hreads
          obtain ⟨front, htext, hleast⟩ := hfirst
          exact .inr ⟨hkey, front, found, htext, hleast, hreads⟩
        · rintro (⟨hsame, -⟩ | ⟨-, front, rest, htext, hleast, hreads⟩)
          · exact absurd hsame hkey
          · have hrest := Substrings.behind_eq_some_iff.2 ⟨front, htext, hleast⟩
            rw [hfound] at hrest
            cases hrest
            exact hreads

end

theorem forall_of_all {text : Bytes} {p : UInt8 → Prop} [DecidablePred p]
    (h : text.all (fun c => decide (p c)) = true) : ∀ c ∈ text, p c :=
  fun c hc => of_decide_eq_true (List.all_eq_true.1 h c hc)

def keyT3 : OptKey := ⟨cstr "t3", by decide, forall_of_all rfl⟩

def pairT3 : OptPair :=
  ⟨keyT3, false, cstr "30", fun _ => forall_of_all rfl, fun h => absurd h Bool.false_ne_true⟩

def timeoutMsg (text : Bytes) (h : text.all (fun c => c ≠ chr '"' ∧ c ≠ 0) = true) : OptPair :=
  ⟨⟨cstr "timeout_msg", by decide, forall_of_all rfl⟩, true, text,
    fun h => absurd h.symm Bool.false_ne_true, fun _ => forall_of_all h⟩

theorem get_opt_right_behind :
    getOpt (cstr "timeout_msg=\"T3 over\" t3=30" ++ [0]) (cstr "t3=") = .value (cstr "30") := by
  have hlaid : Laid [timeoutMsg (cstr "T3 over") rfl, pairT3]
      (cstr "timeout_msg=\"T3 over\" t3=30") := by
    refine .cons 0 _ (.cons 1 _ (.nil 0) fun c hc => by cases hc) fun c hc => ?_
    cases hc
    rfl
  have hfind : [timeoutMsg (cstr "T3 over") rfl, pairT3].find? (fun p => p.Mentions keyT3) =
      some pairT3 := rfl
  refine (get_opt_right_iff hlaid keyT3).2 ?_ []
  intro p hp
  rw [hfind] at hp
  cases hp
  exact .inl ⟨rfl, by decide⟩

/-- The key stands in the message of a timeout, and what follows it there is returned. -/
theorem get_opt_not_always_right :
    ∃ pairs, Laid pairs (cstr "timeout_msg=\"t3=1 over\" t3=30") ∧
      optValue pairs keyT3 = cstr "30" ∧
      getOpt (cstr "timeout_msg=\"t3=1 over\" t3=30" ++ [0]) keyT3.option =
        .value (cstr "1") := by
  refine ⟨[timeoutMsg (cstr "t3=1 over") rfl, pairT3], ?_, rfl, rfl⟩
  refine .cons 0 _ (.cons 1 _ (.nil 0) fun c hc => by cases hc) fun c hc => ?_
  cases hc
  rfl

end ScOpen
