import ScOpen.CommentTails
import ScOpen.ReadEnds
import ScOpen.ConditionalText

/-!
# A blank in front of a comment

The tokens of a text with a comment and of the text with a blank in front of it are compared, call
by call of `get_token()`.
-/

namespace ScOpen

/-! ## What is counted in front of a comment -/

def Parsed.shift : Parsed → Parsed
  | .token x type cnt => .token x type (cnt + 1)
  | .ppError => .ppError
  | .overrun => .overrun

theorem skipLine_shift (token buf : Bytes) (cnt : ℕ) :
    skipLine token buf (cnt + 1) = (skipLine token buf cnt).shift := by
  induction buf generalizing cnt with
  | nil => rfl
  | cons c buf ih =>
      rw [skipLine, skipLine]
      by_cases hc : c = chr '\n'
      · rw [if_pos hc, if_pos hc]
        rfl
      · rw [if_neg hc, if_neg hc]
        exact ih (cnt + 1)

theorem commentLoop_shift (token buf : Bytes) (cnt : ℕ) :
    commentLoop token buf (cnt + 1) = (commentLoop token buf cnt).shift := by
  induction buf generalizing token cnt with
  | nil => rfl
  | cons c buf ih =>
      rw [commentLoop, commentLoop]
      by_cases hopen : c = chr '/' ∧ firstByte buf = chr '*'
      · rw [if_pos hopen, if_pos hopen]
        rfl
      by_cases hclose : c = chr '*' ∧ firstByte buf = chr '/'
      · rw [if_neg hopen, if_pos hclose, if_neg hopen, if_pos hclose]
        rfl
      · rw [if_neg hopen, if_neg hclose, if_neg hopen, if_neg hclose]
        exact ih (token ++ [c]) (cnt + 1)

theorem exists_skipLine (token buf : Bytes) (cnt : ℕ) :
    ∃ n, skipLine token buf cnt = .token token .endOfLine n := by
  induction buf generalizing cnt with
  | nil => exact ⟨cnt, rfl⟩
  | cons c buf ih =>
      rw [skipLine]
      by_cases hc : c = chr '\n'
      · exact ⟨cnt + 1, if_pos hc⟩
      · rw [if_neg hc]
        exact ih (cnt + 1)

theorem commentLoop_result {token buf x : Bytes} {type : ParseType} {cnt n : ℕ}
    (h : commentLoop token buf cnt = .token x type n) : type = .comment ∧ token <+: x := by
  induction buf generalizing token cnt with
  | nil => cases h
  | cons c buf ih =>
      rw [commentLoop] at h
      by_cases hopen : c = chr '/' ∧ firstByte buf = chr '*'
      · rw [if_pos hopen] at h
        cases h
      rw [if_neg hopen] at h
      by_cases hclose : c = chr '*' ∧ firstByte buf = chr '/'
      · rw [if_pos hclose] at h
        cases h
        exact ⟨rfl, List.prefix_append _ _⟩
      · rw [if_neg hclose] at h
        obtain ⟨htype, hprefix⟩ := ih h
        exact ⟨htype, (List.prefix_append _ _).trans hprefix⟩

section

variable {ppFlag : Bool} {K v : Bytes}

theorem runTo_allPassed (hv : ∀ c ∈ v, IsPassed c) (cnt : ℕ) :
    runTo ppFlag ⟨[], .null, v, cnt⟩ = ⟨[], .null, [], cnt + v.length⟩ := by
  induction v generalizing cnt with
  | nil => rfl
  | cons c v ih =>
      rw [runTo_passed (hv c List.mem_cons_self), ih fun d hd => hv d (List.mem_cons_of_mem c hd),
        List.length_cons, Nat.add_right_comm, Nat.add_assoc]

theorem stopAt_allPassed (hv : ∀ c ∈ v, IsPassed c) :
    stopAt ppFlag v = ⟨[], .null, [], v.length⟩ := by
  rw [stopAt, runTo_allPassed hv, Nat.zero_add]

/-- At a comment, with characters in front of it that are passed over. -/
theorem parse_at_comment (hK : CommentAt ppFlag K) (hv : ∀ c ∈ v, IsPassed c) :
    parse (v ++ chr ' ' :: K) [] true ppFlag = (parse (v ++ K) [] true ppFlag).shift ∧
      ∀ x type n, parse (v ++ K) [] true ppFlag = .token x type n →
        (type = .endOfLine ∨ type = .comment) ∧ v.length < n := by
  have hstop := @stopAt_allPassed ppFlag v hv
  rw [parse_append_blank hK hstop, parse_append_comment hK hstop]
  rcases parseEnd_comment hK with hend | hend
  · rw [hend, hend]
    refine ⟨skipLine_shift _ _ _, fun x type n h => ?_⟩
    have hsized := skipLine_sized [] K.tail (v.length + 1)
    obtain ⟨m, hm⟩ := exists_skipLine [] K.tail (v.length + 1)
    rw [h] at hm hsized
    exact ⟨.inl (Parsed.token.inj hm).2.1, hsized.1⟩
  · rw [hend, hend]
    refine ⟨commentLoop_shift _ _ _, fun x type n h => ?_⟩
    have hsized := commentLoop_sized ([] ++ [chr '/', chr '*']) K.tail.tail (v.length + 2)
    rw [h] at hsized
    exact ⟨.inr (commentLoop_result h).1, (Nat.le_succ _).trans hsized.1⟩

/-! ## A token that is exposed -/

theorem stopAt_takes (ppFlag : Bool) (v : Bytes) :
    ∃ p q, LoopTakes ⟨[], .null, v, 0⟩ (stopAt ppFlag v) p q := exists_loopTakes _

theorem stopAt_drop (ppFlag : Bool) (v : Bytes) :
    v.drop (stopAt ppFlag v).cnt = (stopAt ppFlag v).buf := by
  obtain ⟨p, q, htakes⟩ := stopAt_takes ppFlag v
  have hbuf : v = p ++ (q ++ (stopAt ppFlag v).buf) := htakes.buf_eq
  have hcnt : (stopAt ppFlag v).cnt = (p ++ q).length := by
    rw [htakes.cnt_eq, List.length_append, Nat.zero_add]
  rw [hcnt, ← @List.drop_left _ (p ++ q) (stopAt ppFlag v).buf, List.append_assoc,
    ← hbuf]

theorem stopAt_type (h : (stopAt ppFlag v).token ≠ []) :
    (stopAt ppFlag v).type = .number ∨ (stopAt ppFlag v).type = .name := by
  obtain ⟨p, q, htakes⟩ := stopAt_takes ppFlag v
  apply htakes.type_eq.resolve_left
  rintro ⟨rfl, -⟩
  exact h htakes.token_eq

theorem isNameChar_of_isHexDigit {c : UInt8} (h : isHexDigit c = true) : isNameChar c = true := by
  rw [isHexDigit, xdigitValue?] at h
  by_cases hdigit : IsDigit c
  · exact isNameChar_of_isDigit hdigit
  rw [if_neg hdigit] at h
  have halpha : isAlpha c = true := by
    rw [isAlpha, decide_eq_true_iff]
    by_cases hupper : 65 ≤ c ∧ c ≤ 70
    · exact .inl ⟨hupper.1, UInt8.le_trans hupper.2 (by decide)⟩
    · rw [if_neg hupper] at h
      by_cases hlower : 97 ≤ c ∧ c ≤ 102
      · exact .inr ⟨hlower.1, UInt8.le_trans hlower.2 (by decide)⟩
      · rw [if_neg hlower] at h
        cases h
  rw [isNameChar, isAlnum, halpha]
  rfl

theorem exposed_nameChar {c : UInt8} (h : isNameChar c = true) :
    Exposed ppFlag K (stopAt ppFlag [c]) := by
  by_cases hdigit : IsDigit c
  · rw [stopAt, runTo_digit hdigit]
    exact .word rfl (List.cons_ne_nil c [])
  · rw [stopAt, runTo_name hdigit h]
    exact .word rfl (List.cons_ne_nil c [])

theorem exposed_slash (hK : firstByte K = chr '/') : Exposed ppFlag K (stopAt ppFlag [chr '/']) := by
  have hstop : stopAt ppFlag [chr '/'] = ⟨[], .null, [chr '/'], 0⟩ :=
    runTo_stop (by decide) fun h => absurd h (by decide)
  rw [hstop]
  exact .slash rfl hK

structure ExposedToken (ppFlag : Bool) (K v x : Bytes) (type : ParseType) (n : ℕ) : Prop where
  parse_eq : parse (v ++ chr ' ' :: K) [] true ppFlag = .token x type n
  type_ne : type ≠ .endOfLine
  le : n ≤ v.length
  rest : v.drop n = [] ∨ Exposed ppFlag K (stopAt ppFlag (v.drop n))
  other : (∃ y m, parse (v ++ K) [] true ppFlag = .token y .endOfLine m) ∨
    ∀ y type' m, parse (v ++ K) [] true ppFlag = .token y type' m → y ≠ x

/-- The token is cut off by the comment. -/
theorem parse_word_comment {token : Bytes} {type : ParseType} {cnt : ℕ}
    (hK : CommentAt ppFlag K) (hstop : stopAt ppFlag v = ⟨token, type, [], cnt⟩) :
    (∃ y m, parse (v ++ K) [] true ppFlag = .token y .endOfLine m) ∨
      ∀ y type' m, parse (v ++ K) [] true ppFlag = .token y type' m → y ≠ token := by
  rw [parse_append_comment hK hstop]
  rcases parseEnd_comment hK with hend | hend
  · rw [hend]
    obtain ⟨m, hm⟩ := exists_skipLine token K.tail (cnt + 1)
    exact .inl ⟨token, m, hm⟩
  · refine .inr fun y type' m h => ?_
    rw [hend] at h
    rintro rfl
    have hlength := (commentLoop_result h).2.length_le
    rw [List.length_append] at hlength
    exact absurd hlength (Nat.not_le.2 (Nat.lt_add_of_pos_right (by decide)))

theorem parseBranch_slashes {buf : Bytes} (h : firstByte buf = chr '/') :
    parseBranch [] true ppFlag (chr '/') buf = .lineComment := by
  cases buf with
  | nil => exact absurd h (by decide)
  | cons c buf =>
      obtain rfl : c = chr '/' := h
      cases ppFlag <;> rfl

theorem parseBackslash_hex {d : UInt8} (hd : isHexDigit d = true) {c : UInt8}
    (hc : isHexDigit c = false) (buf : Bytes) (cnt : ℕ) :
    parseBackslash [] cnt (chr 'x' :: d :: c :: buf) =
      .token [chr '\\', chr 'x', chr '0', c] .other (cnt + 2) := by
  have hx : ¬(chr 'x' = chr 'n' ∨ chr 'x' = chr 'r') := by decide
  rw [parseBackslash, if_neg hx, if_pos rfl]
  simp only [firstByte, List.headD_cons, List.tail_cons, hd, hc, Bool.false_eq_true, if_true,
    if_false]
  rfl

theorem parse_punctuation {token w tail : Bytes} {type : ParseType} {c : UInt8} {cnt : ℕ}
    (hcut : Cut tail) (hstop : stopAt ppFlag v = ⟨token, type, c :: w, cnt⟩)
    (hbranch : parseBranch [] true ppFlag c (w ++ tail) = .punctuation) :
    parse (v ++ tail) [] true ppFlag =
      if token ≠ [] then .token token type cnt else .token [c] .other (cnt + 1) := by
  rw [parse_append_stop hcut hstop]
  unfold parseEnd
  simp only [hbranch]

theorem parse_backslash {w tail : Bytes} {type : ParseType} {cnt : ℕ} (hcut : Cut tail)
    (hstop : stopAt ppFlag v = ⟨[], type, chr '\\' :: w, cnt⟩) :
    parse (v ++ tail) [] true ppFlag = parseBackslash [] cnt (w ++ tail) := by
  have hbranch : parseBranch [] true ppFlag (chr '\\') (w ++ tail) = .backslash := by
    cases ppFlag <;> rfl
  rw [parse_append_stop hcut hstop]
  unfold parseEnd
  simp only [hbranch, ne_eq, not_true_eq_false, if_false]

theorem exists_exposedToken (hK : CommentAt ppFlag K)
    (h : Exposed ppFlag K (stopAt ppFlag v)) : ∃ x type n, ExposedToken ppFlag K v x type n := by
  have hcnt := stopAt_cnt ppFlag v
  have hdrop := stopAt_drop ppFlag v
  have htype := @stopAt_type ppFlag v
  have hcut := cut_of_first hK.first
  rcases hstop : stopAt ppFlag v with ⟨token, type, buf, cnt⟩
  rw [hstop] at h hcnt hdrop htype
  dsimp only at hcnt hdrop htype
  have hword : token ≠ [] → type ≠ .endOfLine := fun htoken => by
    rcases htype htoken with rfl | rfl <;> decide
  have hline : ∀ {y buf}, parse (v ++ K) [] true ppFlag = skipLine y buf (cnt + 1) →
      ∃ y m, parse (v ++ K) [] true ppFlag = .token y .endOfLine m := by
    intro y buf heq
    obtain ⟨m, hm⟩ := exists_skipLine y buf (cnt + 1)
    exact ⟨y, m, heq.trans hm⟩
  cases h with
  | word hbuf htoken =>
      obtain rfl : buf = [] := hbuf
      exact ⟨token, type, cnt, parse_append_word htoken hstop, hword htoken, hcnt.le, .inl hdrop,
        parse_word_comment hK hstop⟩
  | slash hbuf hslash =>
      obtain rfl : buf = [chr '/'] := hbuf
      have hother : parse (v ++ K) [] true ppFlag = skipLine token K (cnt + 1) := by
        rw [parse_append_stop hcut hstop]
        unfold parseEnd
        simp only [List.nil_append, parseBranch_slashes hslash]
      have hbranch : parseBranch [] true ppFlag (chr '/') ([] ++ chr ' ' :: K) = .punctuation := by
        cases ppFlag <;> rfl
      have hblank := parse_punctuation cut_blank hstop hbranch
      by_cases htoken : token = []
      · rw [if_neg (not_not.2 htoken)] at hblank
        refine ⟨_, _, _, hblank, by decide, hcnt.le, .inl ?_, .inl (hline hother)⟩
        rw [← List.drop_drop, hdrop]
        rfl
      · rw [if_pos htoken] at hblank
        refine ⟨_, _, _, hblank, hword htoken, Nat.le_of_succ_le hcnt.le, .inr ?_,
          .inl (hline hother)⟩
        rw [hdrop]
        exact exposed_slash hslash
  | directive hpp hbuf =>
      obtain ⟨k, K, rfl⟩ := List.exists_cons_of_ne_nil (l := K) (by rintro rfl; exact hK)
      have hk : k = chr '#' ∨ k = chr '/' := hK.first
      subst hpp
      rcases hbuf with hbuf | hbuf
      · obtain rfl : buf = chr '#' :: cstr "else" := hbuf
        refine ⟨token, .poundElse, cnt + 5, parse_append_stop cut_blank hstop, by decide, hcnt.le,
          .inl ?_, .inl ?_⟩
        · rw [← List.drop_drop, hdrop]
          rfl
        · apply hline
          rw [parse_append_stop hcut hstop]
          rcases hk with rfl | rfl <;> rfl
      · obtain rfl : buf = chr '#' :: cstr "endif" := hbuf
        refine ⟨token, .poundEndif, cnt + 6, parse_append_stop cut_blank hstop, by decide, hcnt.le,
          .inl ?_, .inl ?_⟩
        · rw [← List.drop_drop, hdrop]
          rfl
        · apply hline
          rw [parse_append_stop hcut hstop]
          rcases hk with rfl | rfl <;> rfl
  | escape d htoken hd hbuf =>
      obtain rfl : buf = [chr '\\', chr 'x', d] := hbuf
      obtain rfl : token = [] := htoken
      obtain ⟨k, K, rfl⟩ := List.exists_cons_of_ne_nil (l := K) (by rintro rfl; exact hK)
      have hk : isHexDigit k = false ∧ k ≠ chr ' ' := by
        have hfirst : k = chr '#' ∨ k = chr '/' := hK.first
        rcases hfirst with rfl | rfl <;> decide
      have hblank := (parse_backslash cut_blank hstop).trans
        (parseBackslash_hex hd (by decide) (k :: K) cnt)
      have hother := (parse_backslash hcut hstop).trans (parseBackslash_hex hd hk.1 K cnt)
      refine ⟨_, _, _, hblank, by decide, by simp only [List.length_cons] at hcnt; omega, .inr ?_,
        .inr ?_⟩
      · rw [← List.drop_drop, hdrop]
        exact exposed_nameChar (isNameChar_of_isHexDigit hd)
      · intro y type' m h
        rw [hother] at h
        obtain ⟨rfl, -, -⟩ := Parsed.token.inj h
        simp [hk.2]

end

/-! ## A call of `get_token()` -/

structure PpLibrary.NoLineEnds (lib : PpLibrary) : Prop where
  tokenType : ∀ text, lib.tokenType text ≠ TT_END_OF_LINE
  functionType : ∀ text, lib.functionType text ≠ TT_END_OF_LINE

section

variable {lib : PpLibrary} {ppFlag : Bool} {K u v b x source rest : Bytes} {type : UInt8}

theorem nameToken_type_ne (hlib : lib.NoLineEnds) {text text' rest' : Bytes}
    (h : nameToken lib ppFlag text rest = .token type text' rest') : type ≠ TT_END_OF_LINE := by
  obtain ⟨-, ⟨-, rfl⟩ | ⟨-, -, rfl⟩ | ⟨-, -, next, parsed, cnt, -, rfl⟩⟩ :=
    Reading.nameToken_cases h
  · decide
  · exact hlib.tokenType text
  · split
    · exact hlib.functionType text
    · decide

theorem getTokenText_type_ne (hlib : lib.NoLineEnds) {parsed : ParseType} {n : ℕ}
    (hparse : parse (cString source) [] true ppFlag = .token x parsed n)
    (hparsed : parsed ≠ .endOfLine) {text : Bytes}
    (h : getTokenText lib ppFlag source = .token type text rest) : type ≠ TT_END_OF_LINE := by
  rw [getTokenText, hparse] at h
  cases parsed with
  | endOfLine => exact absurd rfl hparsed
  | name => exact nameToken_type_ne hlib h
  | other =>
      cases h
      exact hlib.tokenType _
  | _ =>
      cases h
      decide

theorem getTokenText_line {n : ℕ}
    (hparse : parse (cString source) [] true ppFlag = .token x .endOfLine n) :
    getTokenText lib ppFlag source = .token TT_END_OF_LINE x ((cString source).drop n) := by
  rw [getTokenText, hparse]

inductive Seen where
  | token (type : UInt8) (text : Bytes)
  | ppError
  | overrun

def Lexed.seen : Lexed → Seen
  | .token type text _ => .token type text
  | .ppError => .ppError
  | .overrun => .overrun

def tokensSeen (lib : PpLibrary) (ppFlag : Bool) : ℕ → Bytes → List Seen
  | 0, _ => []
  | n + 1, source =>
      match getTokenText lib ppFlag source with
      | .token type text rest => .token type text :: tokensSeen lib ppFlag n rest
      | .ppError => [.ppError]
      | .overrun => [.overrun]

inductive LexesTo (lib : PpLibrary) (ppFlag : Bool) : Bytes → Bytes → Prop
  | refl (source : Bytes) : LexesTo lib ppFlag source source
  | call {source text rest rest' : Bytes} {type : UInt8}
      (h : getTokenText lib ppFlag source = .token type text rest)
      (hrest : LexesTo lib ppFlag rest rest') : LexesTo lib ppFlag source rest'

theorem LexesTo.length_le (h : LexesTo lib ppFlag source rest) : rest.length ≤ source.length := by
  induction h with
  | refl source => exact le_refl _
  | call h _ ih => exact ih.trans (Reading.getTokenText_rest h)

theorem LexesTo.zero_notMem (h : LexesTo lib ppFlag source rest) (hzero : 0 ∉ source) :
    0 ∉ rest := by
  induction h with
  | refl source => exact hzero
  | call h _ ih =>
      obtain ⟨parsed, n, -, rfl, -⟩ := Reading.getTokenText_token h
      apply ih
      rw [cString_eq_self hzero]
      exact fun hmem => hzero (List.mem_of_mem_drop hmem)

theorem tokensSeen_one (source : Bytes) :
    tokensSeen lib ppFlag 1 source = [(getTokenText lib ppFlag source).seen] := by
  rw [tokensSeen]
  cases getTokenText lib ppFlag source <;> rfl

theorem cString_before (hu : 0 ∉ u) (hK : 0 ∉ K) :
    cString (u ++ K) = u ++ K ∧ cString (u ++ chr ' ' :: K) = u ++ chr ' ' :: K := by
  have hblank : (0 : UInt8) ≠ chr ' ' := by decide
  exact ⟨cString_eq_self (by simp [hu, hK]), cString_eq_self (by simp [hu, hK, hblank])⟩

/-- An exposed token is seen. -/
theorem seen_exposed (hlib : lib.NoLineEnds) (hK : CommentAt ppFlag K) (hu : 0 ∉ u) (hzero : 0 ∉ K)
    (hexposed : Exposed ppFlag K (stopAt ppFlag u))
    (h : getTokenText lib ppFlag (u ++ chr ' ' :: K) = .token type x rest) :
    (getTokenText lib ppFlag (u ++ K)).seen ≠ .token type x := by
  obtain ⟨hcK, hcblank⟩ := cString_before hu hzero
  obtain ⟨y, parsed, n, htoken⟩ := exists_exposedToken hK hexposed
  have hblank := htoken.parse_eq
  rw [← hcblank] at hblank
  have htype := getTokenText_type_ne hlib hblank htoken.type_ne h
  obtain ⟨parsed', n', hparse, -⟩ := Reading.getTokenText_token h
  obtain rfl : y = x := (Parsed.token.inj (hblank.symm.trans hparse)).1
  intro hseen
  have hsame : ∃ rest', getTokenText lib ppFlag (u ++ K) = .token type y rest' := by
    cases htoken' : getTokenText lib ppFlag (u ++ K) with
    | token type' text' rest' =>
        rw [htoken'] at hseen
        obtain ⟨rfl, rfl⟩ := Seen.token.inj hseen
        exact ⟨rest', rfl⟩
    | ppError => rw [htoken'] at hseen; cases hseen
    | overrun => rw [htoken'] at hseen; cases hseen
  obtain ⟨rest', hsame⟩ := hsame
  rcases htoken.other with ⟨z, m, hline⟩ | hother
  · rw [← hcK] at hline
    rw [getTokenText_line hline] at hsame
    exact htype (Lexed.token.inj hsame).1.symm
  · obtain ⟨parsed'', m, hparse'', -⟩ := Reading.getTokenText_token hsame
    rw [hcK] at hparse''
    exact hother y parsed'' m hparse'' rfl

/-! ## Along the text -/

def SameNext (ppFlag : Bool) (K v : Bytes) : Prop :=
  ∀ next type n, parse (v ++ chr ' ' :: K) [] true ppFlag = .token next type n →
    ∃ type' n', parse (v ++ K) [] true ppFlag = .token next type' n'

theorem nameToken_before {text text' rest' : Bytes} (hnext : SameNext ppFlag K v)
    (h : nameToken lib ppFlag text (v ++ chr ' ' :: K) = .token type text' rest') :
    nameToken lib ppFlag text (v ++ K) = .token type text' (v ++ K) := by
  obtain ⟨⟨rfl, -⟩, hkind⟩ := Reading.nameToken_cases h
  rw [nameToken]
  rcases hkind with ⟨hdollar, rfl⟩ | ⟨hdollar, hkeyword, rfl⟩ |
    ⟨hdollar, hkeyword, next, parsed, n, hparse, rfl⟩
  · rw [if_pos hdollar]
  · rw [if_neg hdollar, if_pos hkeyword]
  · obtain ⟨parsed', n', hparse'⟩ := hnext _ _ _ hparse
    rw [if_neg hdollar, if_neg (not_not.2 hkeyword), hparse']
    dsimp only
    by_cases hfunction : cString next = cstr "(" ∧ lib.functionType text' ≠ TT_UNKNOWN
    · rw [if_pos hfunction, if_pos hfunction]
    · rw [if_neg hfunction, if_neg hfunction]

theorem rest_before (hu : 0 ∉ u) (hzero : 0 ∉ K)
    (h : getTokenText lib ppFlag (u ++ chr ' ' :: K) = .token type x rest)
    (hlength : K.length < rest.length) :
    ∃ parsed n, n ≤ u.length ∧ rest = u.drop n ++ chr ' ' :: K ∧
      parse (u ++ chr ' ' :: K) [] true ppFlag = .token x parsed n := by
  obtain ⟨parsed, n, hparse, rfl, -⟩ := Reading.getTokenText_token h
  rw [(cString_before hu hzero).2] at hparse hlength ⊢
  have hn : n ≤ u.length := by
    rw [List.length_drop, List.length_append, List.length_cons] at hlength
    omega
  exact ⟨parsed, n, hn, List.drop_append_of_le_length hn, hparse⟩

/-- A token that is not exposed is the same, if the next one is. -/
theorem getTokenText_before (hK : CommentAt ppFlag K) (hu : 0 ∉ u) (hzero : 0 ∉ K)
    (hexposed : ¬Exposed ppFlag K (stopAt ppFlag u))
    (h : getTokenText lib ppFlag (u ++ chr ' ' :: K) = .token type x (v ++ chr ' ' :: K)) :
    (SameNext ppFlag K v → getTokenText lib ppFlag (u ++ K) = .token type x (v ++ K)) ∧
      ((getTokenText lib ppFlag (u ++ K)).seen = .token type x →
        getTokenText lib ppFlag (u ++ K) = .token type x (v ++ K)) := by
  obtain ⟨hcK, hcblank⟩ := cString_before hu hzero
  have hlength : K.length < (v ++ chr ' ' :: K).length := by
    rw [List.length_append, List.length_cons]
    omega
  obtain ⟨parsed, n, hn, hrest, hparse⟩ := rest_before hu hzero h hlength
  obtain rfl : v = u.drop n := List.append_cancel_right hrest
  have hother := parse_before hK hexposed hparse hn
  have hdrop : (u ++ K).drop n = u.drop n ++ K := List.drop_append_of_le_length hn
  have hdropBlank : (u ++ chr ' ' :: K).drop n = u.drop n ++ chr ' ' :: K :=
    List.drop_append_of_le_length hn
  constructor
  · intro hnext
    rw [getTokenText, hcblank, hparse] at h
    rw [getTokenText, hcK, hother]
    dsimp only at h ⊢
    rw [hdropBlank] at h
    rw [hdrop]
    cases parsed with
    | name => exact nameToken_before hnext h
    | _ =>
        cases h
        rfl
  · intro hseen
    cases htoken : getTokenText lib ppFlag (u ++ K) with
    | token type' text' rest' =>
        rw [htoken] at hseen
        obtain ⟨rfl, rfl⟩ := Seen.token.inj hseen
        obtain ⟨parsed', n', hparse', rfl, -⟩ := Reading.getTokenText_token htoken
        rw [hcK] at hparse' ⊢
        obtain rfl := (Parsed.token.inj (hother.symm.trans hparse')).2.2
        rw [hdrop]
    | ppError => rw [htoken] at hseen; cases hseen
    | overrun => rw [htoken] at hseen; cases hseen

theorem sameNext_passed (hK : CommentAt ppFlag K) (hv : ∀ c ∈ v, IsPassed c) :
    SameNext ppFlag K v := by
  intro next type n h
  have hshift := (parse_at_comment hK hv).1
  rw [h] at hshift
  cases hparse : parse (v ++ K) [] true ppFlag with
  | token y type' n' =>
      rw [hparse] at hshift
      cases hshift
      exact ⟨_, _, rfl⟩
  | ppError =>
      rw [hparse] at hshift
      cases hshift
  | overrun =>
      rw [hparse] at hshift
      cases hshift

/-- The comment itself is the same. -/
theorem getTokenText_comment (hK : CommentAt ppFlag K) (hv : ∀ c ∈ v, IsPassed c) (hzeroV : 0 ∉ v)
    (hzero : 0 ∉ K) :
    getTokenText lib ppFlag (v ++ chr ' ' :: K) = getTokenText lib ppFlag (v ++ K) := by
  obtain ⟨hcK, hcblank⟩ := cString_before hzeroV hzero
  obtain ⟨hshift, htype⟩ := parse_at_comment hK hv
  rw [getTokenText, getTokenText, hcK, hcblank, hshift]
  cases hparse : parse (v ++ K) [] true ppFlag with
  | ppError => rfl
  | overrun => rfl
  | token y type n =>
      obtain ⟨hend, hlt⟩ := htype y type n hparse
      obtain ⟨k, rfl⟩ := Nat.exists_eq_add_of_lt hlt
      have hrest : (v ++ chr ' ' :: K).drop (v.length + k + 1 + 1) =
          (v ++ K).drop (v.length + k + 1) := by
        rw [Nat.add_assoc, Nat.add_assoc, Nat.add_assoc, List.drop_length_add_append,
          List.drop_length_add_append]
        rfl
      rcases hend with rfl | rfl
      · simp only [Parsed.shift, hrest]
      · simp only [Parsed.shift, hrest]

theorem length_lt_before (K v : Bytes) : K.length < (v ++ chr ' ' :: K).length := by
  rw [List.length_append, List.length_cons]
  omega

/-- Behind a comment there is less than the comment. -/
theorem no_token_at_comment (hK : CommentAt ppFlag K) (hzero : 0 ∉ K)
    (h : getTokenText lib ppFlag (chr ' ' :: K) = .token type x rest) :
    rest.length ≤ K.length := by
  by_contra hlength
  have hnil : (0 : UInt8) ∉ ([] : Bytes) := List.not_mem_nil
  have hpassed : ∀ c ∈ ([] : Bytes), IsPassed c := fun _ hc => absurd hc List.not_mem_nil
  obtain ⟨parsed, n, hn, -, hparse⟩ := rest_before hnil hzero h (Nat.not_le.1 hlength)
  obtain rfl : n = 0 := Nat.le_zero.1 hn
  have hshift := (parse_at_comment hK hpassed).1
  rw [hparse] at hshift
  cases hother : parse ([] ++ K) [] true ppFlag with
  | token y type' n' =>
      rw [hother] at hshift
      cases hshift
  | ppError =>
      rw [hother] at hshift
      cases hshift
  | overrun =>
      rw [hother] at hshift
      cases hshift

theorem LexesTo.eq_of_comment (hK : CommentAt ppFlag K) (hzero : 0 ∉ K)
    (h : LexesTo lib ppFlag source rest) (hsource : source = chr ' ' :: K)
    (hlength : K.length < rest.length) : rest = chr ' ' :: K := by
  cases h with
  | refl => exact hsource
  | call hcall hrest =>
      rw [hsource] at hcall
      have hle := hrest.length_le.trans (no_token_at_comment hK hzero hcall)
      exact absurd hle (Nat.not_le.2 hlength)

/-- The text between a place and the comment, where a call starts. -/
theorem exists_before (hu : 0 ∉ u) (hzero : 0 ∉ K)
    (h : getTokenText lib ppFlag (u ++ chr ' ' :: K) = .token type x rest)
    (hrest : LexesTo lib ppFlag rest (v ++ chr ' ' :: K)) :
    ∃ u₁ parsed n, n ≤ u.length ∧ u₁ = u.drop n ∧ rest = u₁ ++ chr ' ' :: K ∧
      parse (u ++ chr ' ' :: K) [] true ppFlag = .token x parsed n := by
  obtain ⟨parsed, n, hn, heq, hparse⟩ :=
    rest_before hu hzero h ((length_lt_before K v).trans_le hrest.length_le)
  exact ⟨_, parsed, n, hn, rfl, heq, hparse⟩

/-- When a token is exposed, so is the last one in front of the comment. -/
theorem exposed_along (hK : CommentAt ppFlag K) (hzero : 0 ∉ K) (hu : 0 ∉ u)
    (h : LexesTo lib ppFlag (u ++ chr ' ' :: K) (v ++ chr ' ' :: K))
    (hlast : getTokenText lib ppFlag (v ++ chr ' ' :: K) = .token type x (b ++ chr ' ' :: K))
    (hexposed : Exposed ppFlag K (stopAt ppFlag u)) : Exposed ppFlag K (stopAt ppFlag v) := by
  generalize hsource : u ++ chr ' ' :: K = source at h
  generalize htarget : v ++ chr ' ' :: K = target at h
  induction h generalizing u with
  | refl source =>
      obtain rfl := List.append_cancel_right (hsource.trans htarget.symm)
      exact hexposed
  | call hcall hrest ih =>
      subst hsource htarget
      obtain ⟨u₁, parsed, n, hn, hdrop, rfl, hparse⟩ := exists_before hu hzero hcall hrest
      have hu₁ : 0 ∉ u₁ := fun hmem => hu (List.mem_of_mem_drop (hdrop ▸ hmem))
      obtain ⟨y, parsed', n', htoken⟩ := exists_exposedToken hK hexposed
      obtain ⟨rfl, rfl, rfl⟩ := Parsed.token.inj (htoken.parse_eq.symm.trans hparse)
      rcases htoken.rest with hnil | hnext
      · rw [hnil] at hdrop
        subst hdrop
        have hv := hrest.eq_of_comment hK hzero rfl (length_lt_before K v)
        rw [hv] at hlast
        have hle := no_token_at_comment hK hzero hlast
        exact absurd hle (Nat.not_le.2 (length_lt_before K b))
      · rw [← hdrop] at hnext
        exact ih hu₁ hnext rfl rfl

theorem sameNext_of_call (hK : CommentAt ppFlag K) (hu : 0 ∉ u) (hzero : 0 ∉ K)
    (hexposed : ¬Exposed ppFlag K (stopAt ppFlag u))
    (h : getTokenText lib ppFlag (u ++ chr ' ' :: K) = .token type x (v ++ chr ' ' :: K)) :
    SameNext ppFlag K u := by
  obtain ⟨parsed, n, hn, -, hparse⟩ := rest_before hu hzero h (length_lt_before K v)
  intro next type' n' hnext
  obtain ⟨rfl, rfl, rfl⟩ := Parsed.token.inj (hparse.symm.trans hnext)
  exact ⟨_, _, parse_before hK hexposed hparse hn⟩

theorem tokensSeen_call {source' rest' : Bytes}
    (h : getTokenText lib ppFlag source = .token type x rest)
    (h' : getTokenText lib ppFlag source' = .token type x rest')
    (hrest : ∀ n, tokensSeen lib ppFlag n rest = tokensSeen lib ppFlag n rest') (n : ℕ) :
    tokensSeen lib ppFlag n source = tokensSeen lib ppFlag n source' := by
  cases n with
  | zero => rfl
  | succ n => simp only [tokensSeen, h, h', hrest n]

/-- Without an exposed token in front of the comment all tokens are the same. -/
theorem tokensSeen_along (hK : CommentAt ppFlag K) (hzero : 0 ∉ K) (hu : 0 ∉ u)
    (h : LexesTo lib ppFlag (u ++ chr ' ' :: K) (v ++ chr ' ' :: K))
    (hlast : getTokenText lib ppFlag (v ++ chr ' ' :: K) = .token type x (b ++ chr ' ' :: K))
    (hb : ∀ c ∈ b, IsPassed c) (hexposed : ¬Exposed ppFlag K (stopAt ppFlag v)) :
    SameNext ppFlag K u ∧ ∀ n, tokensSeen lib ppFlag n (u ++ chr ' ' :: K) =
      tokensSeen lib ppFlag n (u ++ K) := by
  have hnot := fun {w} hw hlexes => mt (exposed_along (u := w) hK hzero hw hlexes hlast) hexposed
  generalize hsource : u ++ chr ' ' :: K = source at h
  generalize htarget : v ++ chr ' ' :: K = target at h
  induction h generalizing u with
  | refl source =>
      obtain rfl := List.append_cancel_right (hsource.trans htarget.symm)
      subst hsource
      refine ⟨sameNext_of_call hK hu hzero hexposed hlast, ?_⟩
      apply tokensSeen_call hlast
      · exact (getTokenText_before hK hu hzero hexposed hlast).1 (sameNext_passed hK hb)
      · obtain ⟨parsed, n, hn, hrest, -⟩ := rest_before hu hzero hlast (length_lt_before K b)
        have hbzero : 0 ∉ b := by
          rw [List.append_cancel_right hrest]
          exact fun hmem => hu (List.mem_of_mem_drop hmem)
        rintro (_ | n)
        · rfl
        · rw [tokensSeen, tokensSeen, getTokenText_comment hK hb hbzero hzero]
  | call hcall hrest ih =>
      subst hsource htarget
      have hexposedU := hnot hu (.call hcall hrest)
      obtain ⟨u₁, parsed, n, hn, hdrop, rfl, hparse⟩ := exists_before hu hzero hcall hrest
      have hu₁ : 0 ∉ u₁ := fun hmem => hu (List.mem_of_mem_drop (hdrop ▸ hmem))
      obtain ⟨hnext, hsame⟩ := ih hu₁ rfl rfl
      refine ⟨sameNext_of_call hK hu hzero hexposedU hcall, ?_⟩
      exact tokensSeen_call hcall ((getTokenText_before hK hu hzero hexposedU hcall).1 hnext) hsame

/-- With an exposed token in front of the comment some token differs. -/
theorem exists_tokensSeen_ne (hlib : lib.NoLineEnds) (hK : CommentAt ppFlag K) (hzero : 0 ∉ K)
    (hu : 0 ∉ u) (h : LexesTo lib ppFlag (u ++ chr ' ' :: K) (v ++ chr ' ' :: K))
    (hlast : getTokenText lib ppFlag (v ++ chr ' ' :: K) = .token type x (b ++ chr ' ' :: K))
    (hexposed : Exposed ppFlag K (stopAt ppFlag v)) :
    ∃ n, tokensSeen lib ppFlag n (u ++ chr ' ' :: K) ≠ tokensSeen lib ppFlag n (u ++ K) := by
  have hone : ∀ {w type x rest}, getTokenText lib ppFlag (w ++ chr ' ' :: K) =
      .token type x rest → (getTokenText lib ppFlag (w ++ K)).seen ≠ .token type x →
      ∃ n, tokensSeen lib ppFlag n (w ++ chr ' ' :: K) ≠ tokensSeen lib ppFlag n (w ++ K) := by
    intro w type x rest hcall hne
    refine ⟨1, fun heq => hne ?_⟩
    rw [tokensSeen_one, tokensSeen_one, hcall] at heq
    exact (List.cons.inj heq).1.symm
  generalize hsource : u ++ chr ' ' :: K = source at h
  generalize htarget : v ++ chr ' ' :: K = target at h
  induction h generalizing u with
  | refl source =>
      obtain rfl := List.append_cancel_right (hsource.trans htarget.symm)
      subst hsource
      exact hone hlast (seen_exposed hlib hK hu hzero hexposed hlast)
  | @call _ text _ _ type' hcall hrest ih =>
      subst hsource htarget
      by_cases hseen : (getTokenText lib ppFlag (u ++ K)).seen = .token type' text
      · by_cases hexposedU : Exposed ppFlag K (stopAt ppFlag u)
        · exact hone hcall (seen_exposed hlib hK hu hzero hexposedU hcall)
        · obtain ⟨u₁, parsed, n, hn, hdrop, rfl, hparse⟩ := exists_before hu hzero hcall hrest
          have hu₁ : 0 ∉ u₁ := fun hmem => hu (List.mem_of_mem_drop (hdrop ▸ hmem))
          have hother := (getTokenText_before hK hu hzero hexposedU hcall).2 hseen
          obtain ⟨n, hne⟩ := ih hu₁ rfl rfl
          refine ⟨n + 1, fun heq => hne ?_⟩
          simp only [tokensSeen, hcall, hother] at heq
          exact (List.cons.inj heq).2
      · exact hone hcall hseen

/-! ## The last token in front of the comment -/

/-- A text of one token that a comment behind it cuts off: a word, a `/` in front of another one, or
a directive, which has to have a blank behind it. -/
inductive Clings (ppFlag : Bool) (K : Bytes) (w : Bytes) : Prop
  | word (hne : w ≠ []) (hword : ∀ c ∈ w, IsWordlike c) (hsign : w ≠ [chr '+'] ∧ w ≠ [chr '-'])
  | slash (hw : w = [chr '/']) (hK : firstByte K = chr '/')
  | directive (hpp : ppFlag = true) (q : Bytes) (hword : ∀ c ∈ q, IsWordlike c)
      (hw : w = q ++ cstr "#else" ∨ w = q ++ cstr "#endif")

def withoutPassed (v : Bytes) : Bytes := v.dropWhile fun c => decide (IsPassed c)

theorem stopAt_withoutPassed (ppFlag : Bool) (v : Bytes) :
    withoutPassed v = (stopAt ppFlag v).token ++ (stopAt ppFlag v).buf ∧
      ∀ c ∈ (stopAt ppFlag v).token, IsWordlike c := by
  obtain ⟨p, q, htakes⟩ := stopAt_takes ppFlag v
  have htoken : (stopAt ppFlag v).token = q := htakes.token_eq
  have hbuf : v = p ++ (q ++ (stopAt ppFlag v).buf) := htakes.buf_eq
  have hstops := htakes.stops
  rw [htoken] at hstops ⊢
  refine ⟨?_, htakes.wordlike⟩
  have hp : ∀ c ∈ p, decide (IsPassed c) = true := fun c hc => decide_eq_true (htakes.passed c hc)
  have hhead : ∀ c r, q ++ (stopAt ppFlag v).buf = c :: r → ¬IsPassed c := by
    intro c r hcons hpassed
    cases q with
    | nil => exact (hstops c r hcons).2 hpassed rfl
    | cons d q =>
        have hname := htakes.first rfl d q rfl
        obtain rfl : d = c := (List.cons.inj hcons).1
        rw [hpassed.1] at hname
        cases hname
  calc withoutPassed v = withoutPassed (p ++ (q ++ (stopAt ppFlag v).buf)) := by rw [← hbuf]
    _ = withoutPassed (q ++ (stopAt ppFlag v).buf) := List.dropWhile_append_of_pos hp
    _ = q ++ (stopAt ppFlag v).buf := by
      rcases hrest : q ++ (stopAt ppFlag v).buf with _ | ⟨c, r⟩
      · rfl
      · exact List.dropWhile_cons_of_neg (by simpa using hhead c r hrest)

theorem parse_last (hu : 0 ∉ v) (hzero : 0 ∉ K)
    (hlast : getTokenText lib ppFlag (v ++ chr ' ' :: K) = .token type x (b ++ chr ' ' :: K)) :
    ∃ parsed n, n ≤ v.length ∧ b = v.drop n ∧
      parse (v ++ chr ' ' :: K) [] true ppFlag = .token x parsed n := by
  obtain ⟨parsed, n, hn, hrest, hparse⟩ := rest_before hu hzero hlast (length_lt_before K b)
  exact ⟨parsed, n, hn, List.append_cancel_right hrest, hparse⟩

/-- A sign at which the loop stops is a token. -/
theorem stop_sign {token w : Bytes} {parsed parsed' : ParseType} {c : UInt8} {cnt : ℕ}
    (hstop : stopAt ppFlag v = ⟨token, parsed, c :: w, cnt⟩) (hc : IsWordlike c)
    (hparse : parse (v ++ chr ' ' :: K) [] true ppFlag = .token x parsed' v.length) :
    w = [] ∧ token = [] ∧ (c = chr '+' ∨ c = chr '-') := by
  have hcnt := stopAt_cnt ppFlag v
  obtain ⟨p, q, htakes⟩ := stopAt_takes ppFlag v
  have hstops := htakes.stops
  rw [hstop] at hcnt hstops
  dsimp only [List.length_cons] at hcnt
  have hsign : c = chr '+' ∨ c = chr '-' := by
    apply hc.resolve_left
    rw [(hstops c w rfl).1]
    decide
  have hbranch : parseBranch [] true ppFlag c (w ++ chr ' ' :: K) = .punctuation := by
    rcases hsign with rfl | rfl <;> cases ppFlag <;> rfl
  rw [parse_punctuation cut_blank hstop hbranch] at hparse
  by_cases htoken : token = []
  · rw [if_neg (not_not.2 htoken)] at hparse
    have hlength := (Parsed.token.inj hparse).2.2
    exact ⟨List.length_eq_zero_iff.1 (by omega), htoken, hsign⟩
  · rw [if_pos htoken] at hparse
    have hlength := (Parsed.token.inj hparse).2.2
    omega

theorem not_exposed_passed (hb : ∀ c ∈ b, IsPassed c) : ¬Exposed ppFlag K (stopAt ppFlag b) := by
  rw [stopAt_allPassed hb]
  intro h
  cases h with
  | word hbuf htoken => exact htoken rfl
  | slash hbuf hK => cases hbuf
  | directive hpp hbuf => rcases hbuf with hbuf | hbuf <;> cases hbuf
  | escape d htoken hd hbuf => cases hbuf

theorem clings_of_exposed (hK : CommentAt ppFlag K) (hu : 0 ∉ v) (hzero : 0 ∉ K)
    (hlast : getTokenText lib ppFlag (v ++ chr ' ' :: K) = .token type x (b ++ chr ' ' :: K))
    (hb : ∀ c ∈ b, IsPassed c) (hexposed : Exposed ppFlag K (stopAt ppFlag v)) :
    b = [] ∧ Clings ppFlag K (withoutPassed v) := by
  obtain ⟨parsed, n, hn, rfl, hparse⟩ := parse_last hu hzero hlast
  obtain ⟨y, parsed', n', htoken⟩ := exists_exposedToken hK hexposed
  obtain ⟨rfl, rfl, rfl⟩ := Parsed.token.inj (htoken.parse_eq.symm.trans hparse)
  have hnil : v.drop n' = [] := htoken.rest.resolve_right (not_exposed_passed hb)
  obtain rfl : n' = v.length := Nat.le_antisymm hn (List.drop_eq_nil_iff.1 hnil)
  refine ⟨hnil, ?_⟩
  have hcnt := stopAt_cnt ppFlag v
  obtain ⟨p, q, htakes⟩ := stopAt_takes ppFlag v
  obtain ⟨hwithout, hwordlike⟩ := stopAt_withoutPassed ppFlag v
  have hfirst := htakes.first rfl
  have htokenq : (stopAt ppFlag v).token = q := htakes.token_eq
  rcases hstop : stopAt ppFlag v with ⟨token, type', buf, cnt⟩
  rw [hstop] at hexposed hcnt hwithout hwordlike htokenq
  obtain rfl : token = q := htokenq
  rw [hwithout]
  cases hexposed with
  | word hbuf htoken =>
      obtain rfl : buf = [] := hbuf
      rw [List.append_nil]
      have hsign : ∀ c, isNameChar c = false → token ≠ [c] := by
        rintro c hc rfl
        rw [hfirst c [] rfl] at hc
        cases hc
      exact .word htoken hwordlike ⟨hsign _ (by decide), hsign _ (by decide)⟩
  | slash hbuf hslash =>
      obtain rfl : buf = [chr '/'] := hbuf
      have hbranch : parseBranch [] true ppFlag (chr '/') ([] ++ chr ' ' :: K) = .punctuation := by
        cases ppFlag <;> rfl
      rw [parse_punctuation cut_blank hstop hbranch] at hparse
      by_cases htoken : token = []
      · rw [htoken]
        exact .slash rfl hslash
      · rw [if_pos htoken] at hparse
        have hlength := (Parsed.token.inj hparse).2.2
        dsimp only [List.length_singleton] at hcnt
        omega
  | directive hpp hbuf =>
      refine .directive hpp token hwordlike ?_
      rcases hbuf with rfl | rfl
      · exact .inl rfl
      · exact .inr rfl
  | escape d htoken hd hbuf =>
      obtain rfl : buf = [chr '\\', chr 'x', d] := hbuf
      obtain rfl : token = [] := htoken
      have hhex := (parse_backslash cut_blank hstop).trans (parseBackslash_hex hd (by decide) K cnt)
      rw [hparse] at hhex
      have hlength := (Parsed.token.inj hhex).2.2
      dsimp only [List.length_cons, List.length_nil] at hcnt
      omega

theorem exposed_of_clings (hu : 0 ∉ v) (hzero : 0 ∉ K)
    (hlast : getTokenText lib ppFlag (v ++ chr ' ' :: K) = .token type x (chr ' ' :: K))
    (hclings : Clings ppFlag K (withoutPassed v)) : Exposed ppFlag K (stopAt ppFlag v) := by
  obtain ⟨parsed, n, hn, hdrop, hparse⟩ := parse_last (b := []) hu hzero hlast
  obtain rfl : n = v.length := Nat.le_antisymm hn (List.drop_eq_nil_iff.1 hdrop.symm)
  obtain ⟨hwithout, hwordlike⟩ := stopAt_withoutPassed ppFlag v
  rcases hstop : stopAt ppFlag v with ⟨token, type', buf, cnt⟩
  rw [hstop] at hwithout hwordlike
  rw [hwithout] at hclings
  dsimp only at hclings hwordlike
  have hdirective : ∀ q D, (∀ c ∈ q, IsWordlike c) → token ++ buf = q ++ chr '#' :: D →
      1 ≤ D.length → buf = chr '#' :: D := by
    intro q D hq heq hD
    rcases List.append_eq_append_iff.1 heq with ⟨a, rfl, hbuf⟩ | ⟨a, rfl, hbuf⟩
    · cases a with
      | nil => exact hbuf
      | cons c a =>
          rw [hbuf] at hstop
          have hc := hq c (List.mem_append_right _ List.mem_cons_self)
          have hw := (stop_sign hstop hc hparse).1
          cases a <;> cases hw
    · cases a with
      | nil => exact hbuf.symm
      | cons c a =>
          obtain rfl : chr '#' = c := (List.cons.inj hbuf).1
          exact absurd (hwordlike _ (List.mem_append_right _ List.mem_cons_self)) (by decide)
  cases hclings with
  | word hne hword hsign =>
      cases buf with
      | nil =>
          rw [List.append_nil] at hne
          exact .word rfl hne
      | cons c w =>
          have hc := hword c (List.mem_append_right _ List.mem_cons_self)
          obtain ⟨rfl, rfl, rfl | rfl⟩ := stop_sign hstop hc hparse
          · exact absurd rfl hsign.1
          · exact absurd rfl hsign.2
  | slash hw hslash =>
      cases token with
      | nil => exact .slash hw hslash
      | cons c token =>
          obtain rfl : c = chr '/' := (List.cons.inj hw).1
          exact absurd (hwordlike _ List.mem_cons_self) (by decide)
  | directive hpp q hq hw =>
      refine .directive hpp ?_
      rcases hw with hw | hw
      · exact .inl (hdirective q _ hq hw (by decide))
      · exact .inr (hdirective q _ hq hw (by decide))

/-- A blank in front of a comment that is behind a token changes no token if and only if there are
blanks already, or the token does not cling to the comment. -/
theorem space_before_comment_iff (hlib : lib.NoLineEnds) (hu : 0 ∉ u) (hzero : 0 ∉ K)
    (hK : CommentAt ppFlag K)
    (hreads : LexesTo lib ppFlag (u ++ chr ' ' :: K) (v ++ chr ' ' :: K))
    (hlast : getTokenText lib ppFlag (v ++ chr ' ' :: K) = .token type x (b ++ chr ' ' :: K))
    (hb : ∀ c ∈ b, IsPassed c) :
    (∀ n, tokensSeen lib ppFlag n (u ++ chr ' ' :: K) = tokensSeen lib ppFlag n (u ++ K)) ↔
      b ≠ [] ∨ ¬Clings ppFlag K (withoutPassed v) := by
  have hv : 0 ∉ v := by
    have hsource : (0 : UInt8) ∉ u ++ chr ' ' :: K := by
      have hblank : (0 : UInt8) ≠ chr ' ' := by decide
      simp [hu, hzero, hblank]
    exact fun hmem => hreads.zero_notMem hsource (List.mem_append_left _ hmem)
  constructor
  · intro hsame
    by_contra hclings
    rw [not_or, not_not, not_not] at hclings
    obtain ⟨rfl, hclings⟩ := hclings
    obtain ⟨n, hne⟩ := exists_tokensSeen_ne hlib hK hzero hu hreads hlast
      (exposed_of_clings hv hzero hlast hclings)
    exact hne (hsame n)
  · intro hfine
    refine (tokensSeen_along hK hzero hu hreads hlast hb fun hexposed => ?_).2
    obtain ⟨hnil, hclings⟩ := clings_of_exposed hK hv hzero hlast hb hexposed
    exact hfine.elim (fun hne => hne hnil) fun hnot => hnot hclings

end

theorem noKeywords_noLineEnds : Reading.noKeywords.NoLineEnds := by
  have hne : TT_UNKNOWN ≠ TT_END_OF_LINE := by decide
  exact ⟨fun _ => hne, fun _ => hne⟩

/-- `12;# a` -/
theorem space_before_comment_semicolon :
    (∀ n, tokensSeen Reading.noKeywords true n (cstr "12;" ++ chr ' ' :: cstr "# a\n") =
        tokensSeen Reading.noKeywords true n (cstr "12;" ++ cstr "# a\n")) ↔
      [] ≠ ([] : Bytes) ∨ ¬Clings true (cstr "# a\n") (withoutPassed (cstr ";")) := by
  have hcomment : CommentAt true (cstr "# a\n") := .inl rfl
  have hfirst : getTokenText Reading.noKeywords true (cstr "12;" ++ chr ' ' :: cstr "# a\n") =
      .token TT_NUMBER (cstr "12") (cstr ";" ++ chr ' ' :: cstr "# a\n") := rfl
  have hlast : getTokenText Reading.noKeywords true (cstr ";" ++ chr ' ' :: cstr "# a\n") =
      .token TT_END_OF_LINE (cstr ";") ([] ++ chr ' ' :: cstr "# a\n") := rfl
  exact space_before_comment_iff noKeywords_noLineEnds (by decide) (by decide) hcomment
    (.call hfirst (.refl _)) hlast fun _ h => absurd h List.not_mem_nil

/-- A number and a comment behind it are the end of a line: `12# a`. -/
theorem space_before_comment_not_always_same :
    ¬∀ (lib : PpLibrary) (ppFlag : Bool) (u v b K x : Bytes) (type : UInt8),
      lib.NoLineEnds → 0 ∉ u → 0 ∉ K → CommentAt ppFlag K →
      LexesTo lib ppFlag (u ++ chr ' ' :: K) (v ++ chr ' ' :: K) →
      getTokenText lib ppFlag (v ++ chr ' ' :: K) = .token type x (b ++ chr ' ' :: K) →
      (∀ c ∈ b, IsPassed c) →
      ∀ n, tokensSeen lib ppFlag n (u ++ chr ' ' :: K) = tokensSeen lib ppFlag n (u ++ K) := by
  intro h
  have hcomment : CommentAt true (cstr "# a\n") := .inl rfl
  have hblank : getTokenText Reading.noKeywords true (cstr "12" ++ chr ' ' :: cstr "# a\n") =
      .token TT_NUMBER (cstr "12") ([] ++ chr ' ' :: cstr "# a\n") := rfl
  have hline : getTokenText Reading.noKeywords true (cstr "12" ++ cstr "# a\n") =
      .token TT_END_OF_LINE (cstr "12") [] := rfl
  have hsame := h Reading.noKeywords true (cstr "12") (cstr "12") [] (cstr "# a\n") (cstr "12")
    TT_NUMBER noKeywords_noLineEnds (by decide) (by decide) hcomment (.refl _) hblank
    (fun _ hc => absurd hc List.not_mem_nil) 1
  rw [tokensSeen_one, tokensSeen_one, hblank, hline] at hsame
  have htype := (Seen.token.inj (List.cons.inj hsame).1).1
  exact absurd htype (by decide)

end ScOpen
