import ScOpen.CommentSpaces

/-!
# The line feeds of a token

Each token takes a part of its text. The words, the numbers and the directives take no line feed;
a definition and a comment take those that are in their data, and the end of a line takes one, or
none where it is a semicolon, a carriage return or a comment at the end of the text. What a string
has of them need not be what it takes, because of its escapes.
-/

namespace ScOpen

def lineFeeds (v : Bytes) : ℕ := v.count (chr '\n')

theorem lineFeeds_append (v w : Bytes) : lineFeeds (v ++ w) = lineFeeds v + lineFeeds w :=
  List.count_append

theorem lineFeeds_eq_zero {v : Bytes} (h : chr '\n' ∉ v) : lineFeeds v = 0 :=
  List.count_eq_zero_of_not_mem h

theorem lineFeeds_singleton (c : UInt8) : lineFeeds [c] = if c = chr '\n' then 1 else 0 := by
  rw [lineFeeds, List.count_singleton]
  exact if_congr beq_iff_eq rfl rfl

theorem lineFeeds_cons (c : UInt8) (v : Bytes) :
    lineFeeds (c :: v) = (if c = chr '\n' then 1 else 0) + lineFeeds v := by
  rw [← lineFeeds_singleton, ← lineFeeds_append, List.singleton_append]

theorem newLines_eq {v : Bytes} (h : 0 ∉ v) : newLines v = lineFeeds v := by
  rw [newLines, cString_eq_self h]
  rfl

/-- Only up to a NUL is anything counted. -/
theorem newLines_concat (token : Bytes) (c : UInt8) :
    newLines (token ++ [c]) = newLines token + if 0 ∉ token ∧ c = chr '\n' then 1 else 0 := by
  by_cases hzero : 0 ∈ token
  · obtain ⟨r, hr⟩ := cString_append_zero hzero
    have hcut : cString (token ++ [c]) = cString token := by
      rw [hr, List.append_assoc, List.cons_append, cString_zero (zero_notMem_cString token),
        cString_zero (zero_notMem_cString token)]
    rw [newLines, hcut, if_neg fun h => h.1 hzero]
    rfl
  · by_cases hc : c = 0
    · rw [hc, newLines, cString_zero hzero, if_neg fun h => absurd h.2 (by decide), newLines,
        cString_eq_self hzero]
      rfl
    · have hnot : 0 ∉ token ++ [c] := by
        rw [List.mem_append, List.mem_singleton, not_or]
        exact ⟨hzero, Ne.symm hc⟩
      rw [newLines_eq hnot, newLines_eq hzero, lineFeeds_append, lineFeeds_singleton]
      simp only [hzero, not_false_eq_true, true_and]

theorem newLines_concat_of_ne (token : Bytes) {c : UInt8} (hc : c ≠ chr '\n') :
    newLines (token ++ [c]) = newLines token := by
  rw [newLines_concat, if_neg fun h => hc h.2, Nat.add_zero]

theorem newLines_append_of_notMem (token : Bytes) {v : Bytes} (hv : chr '\n' ∉ v) :
    newLines (token ++ v) = newLines token := by
  induction v generalizing token with
  | nil => rw [List.append_nil]
  | cons c v ih =>
      rw [List.mem_cons, not_or] at hv
      rw [List.append_cons, ih _ hv.2, newLines_concat_of_ne token (Ne.symm hv.1)]

/-! ## Strings -/

/-- The escapes of a string change none of its line feeds: two characters behind `\x` are none and
stand for none, and none is escaped behind a NUL, where nothing is counted. -/
def StringLines : Bool → Bytes → Prop
  | _, [] => True
  | cut, c :: buf =>
      if c = chr '"' then True
      else if c = chr '\\' then
        match buf with
        | [] => True
        | d :: buf =>
            if d = chr 'x' then
              match buf with
              | a :: b :: buf =>
                  let v := scanHexChar (a :: b :: buf)
                  a ≠ chr '\n' ∧ b ≠ chr '\n' ∧ (cut = false → v ≠ chr '\n') ∧
                    StringLines (cut || decide (v = 0)) buf
              | _ => True
            else (cut = true → d ≠ chr '\n') ∧ StringLines cut buf
      else StringLines cut buf

section

variable {token buf text : Bytes} {type : ParseType} {cnt n : ℕ}

def Takes (buf w : Bytes) (cnt n : ℕ) : Prop := w <+: buf ∧ n = cnt + w.length

theorem Takes.nil (buf : Bytes) (cnt : ℕ) : Takes buf [] cnt cnt := ⟨List.nil_prefix, rfl⟩

theorem Takes.append {v w : Bytes} (h : Takes buf w (cnt + v.length) n) :
    Takes (v ++ buf) (v ++ w) cnt n := by
  refine ⟨(List.prefix_append_right_inj v).2 h.1, ?_⟩
  rw [h.2, List.length_append, Nat.add_assoc]

theorem Takes.cons {w : Bytes} {c : UInt8} (h : Takes buf w (cnt + 1) n) :
    Takes (c :: buf) (c :: w) cnt n :=
  Takes.append (v := [c]) h

/-- What is taken as it stands, without a line feed, counts nothing. -/
theorem newLines_kept {v w : Bytes} (hv : chr '\n' ∉ v)
    (h : newLines text = newLines (token ++ v) + lineFeeds w) :
    newLines text = newLines token + lineFeeds (v ++ w) := by
  rw [h, newLines_append_of_notMem token hv, lineFeeds_append, lineFeeds_eq_zero hv, Nat.zero_add]

theorem stringLoop_lines {cut : Bool} (hzero : 0 ∉ buf) (hcut : cut = true ↔ 0 ∈ token)
    (h : stringLoop token buf cnt = .token text type n) :
    type = .string ∧ ∃ w, Takes buf w cnt n ∧
      (StringLines cut buf → newLines text = newLines token + lineFeeds w) := by
  have hkeep : ∀ {token : Bytes} {d : UInt8}, 0 ≠ d → (0 ∈ token ++ [d] ↔ 0 ∈ token) := by
    intro token d hd
    rw [List.mem_append, List.mem_singleton, or_iff_left hd]
  induction token, buf, cnt using stringLoop.induct generalizing cut with
  | case1 token cnt =>
      cases h
      exact ⟨rfl, [], .nil _ _, fun _ => rfl⟩
  | case2 token buf cnt =>
      unfold stringLoop at h
      rw [if_pos rfl] at h
      cases h
      refine ⟨rfl, [chr '"'], (Takes.nil _ _).cons, fun _ => ?_⟩
      rw [lineFeeds_eq_zero (by decide), Nat.add_zero]
  | case3 token cnt _ =>
      unfold stringLoop at h
      rw [if_neg (by decide), if_pos rfl] at h
      cases h
  | case4 token cnt buf _ ih =>
      unfold stringLoop at h
      rw [if_neg (by decide), if_pos rfl] at h
      simp only [List.mem_cons, not_or] at hzero
      have hcut' : cut = true ↔ 0 ∈ token ++ cstr "\\n" := by
        rw [hcut, List.mem_append, or_iff_left (by decide)]
      obtain ⟨htype, w, htakes, hw⟩ := ih hzero.2.2 hcut' h
      refine ⟨htype, _, htakes.append (v := [chr '\\', chr 'n']), fun hlines => ?_⟩
      unfold StringLines at hlines
      rw [if_neg (by decide), if_pos rfl] at hlines
      exact newLines_kept (by decide) (hw hlines.2)
  | case5 token cnt buf _ hrn ih =>
      unfold stringLoop at h
      rw [if_neg (by decide), if_pos rfl] at h
      dsimp only at h
      rw [if_neg hrn, if_pos rfl] at h
      simp only [List.mem_cons, not_or] at hzero
      have hcut' : cut = true ↔ 0 ∈ token ++ cstr "\\r" := by
        rw [hcut, List.mem_append, or_iff_left (by decide)]
      obtain ⟨htype, w, htakes, hw⟩ := ih hzero.2.2 hcut' h
      refine ⟨htype, _, htakes.append (v := [chr '\\', chr 'r']), fun hlines => ?_⟩
      unfold StringLines at hlines
      rw [if_neg (by decide), if_pos rfl] at hlines
      exact newLines_kept (by decide) (hw hlines.2)
  | case6 token cnt a b buf _ hxn hxr ih =>
      unfold stringLoop at h
      rw [if_neg (by decide), if_pos rfl] at h
      dsimp only at h
      rw [if_neg hxn, if_neg hxr, if_pos rfl] at h
      simp only [List.mem_cons, not_or] at hzero
      have hcut' : (cut || decide (scanHexChar (a :: b :: buf) = 0)) = true ↔
          0 ∈ token ++ [scanHexChar (a :: b :: buf)] := by
        rw [Bool.or_eq_true, hcut, decide_eq_true_iff, List.mem_append, List.mem_singleton,
          @eq_comm _ _ (0 : UInt8)]
      obtain ⟨htype, w, htakes, hw⟩ := ih hzero.2.2.2.2 hcut' h
      refine ⟨htype, _, htakes.append (v := [chr '\\', chr 'x', a, b]), fun hlines => ?_⟩
      unfold StringLines at hlines
      rw [if_neg (by decide), if_pos rfl] at hlines
      obtain ⟨ha, hb, hvalue, hlines⟩ := hlines
      have htaken : chr '\n' ∉ [chr '\\', chr 'x', a, b] := by
        simp only [List.mem_cons, List.not_mem_nil, or_false, not_or]
        exact ⟨by decide, by decide, Ne.symm ha, Ne.symm hb⟩
      have hnone : ¬ (0 ∉ token ∧ scanHexChar (a :: b :: buf) = chr '\n') := by
        rintro ⟨hnot, heq⟩
        exact hvalue (Bool.eq_false_iff.2 fun htrue => hnot (hcut.1 htrue)) heq
      rw [hw hlines, newLines_concat, if_neg hnone, lineFeeds_append, lineFeeds_eq_zero htaken,
        Nat.zero_add, Nat.add_zero]
  | case7 token cnt buf hshort _ hxn hxr =>
      unfold stringLoop at h
      rw [if_neg (by decide), if_pos rfl] at h
      dsimp only at h
      rw [if_neg hxn, if_neg hxr, if_pos rfl] at h
      rcases buf with _ | ⟨a, _ | ⟨b, buf⟩⟩
      · cases h
      · cases h
      · exact (hshort a b buf rfl).elim
  | case8 token cnt d buf hdn hdr hdx _ ih =>
      unfold stringLoop at h
      rw [if_neg (by decide), if_pos rfl] at h
      dsimp only at h
      rw [if_neg hdn, if_neg hdr, if_neg hdx] at h
      simp only [List.mem_cons, not_or] at hzero
      obtain ⟨htype, w, htakes, hw⟩ := ih hzero.2.2 (hcut.trans (hkeep hzero.2.1).symm) h
      refine ⟨htype, _, htakes.append (v := [chr '\\', d]), fun hlines => ?_⟩
      unfold StringLines at hlines
      rw [if_neg (by decide), if_pos rfl] at hlines
      dsimp only at hlines
      rw [if_neg hdx] at hlines
      have hcount : (0 ∉ token ∧ d = chr '\n') ↔ d = chr '\n' :=
        ⟨And.right, fun hd => ⟨fun hmem => hlines.1 (hcut.2 hmem) hd, hd⟩⟩
      have hback : chr '\\' ≠ chr '\n' := by decide
      have htaken : lineFeeds [chr '\\', d] = if d = chr '\n' then 1 else 0 := by
        rw [lineFeeds_cons, if_neg hback, Nat.zero_add, lineFeeds_singleton]
      rw [hw hlines.2, newLines_concat, if_congr hcount rfl rfl, lineFeeds_append, htaken,
        Nat.add_assoc]
  | case9 token buf cnt hnq hnb =>
      unfold stringLoop at h
      rw [if_neg hnq, if_neg hnb, if_pos rfl] at h
      cases h
  | case10 token c buf cnt hcq hcb hcn ih =>
      unfold stringLoop at h
      rw [if_neg hcq, if_neg hcb, if_neg hcn] at h
      rw [List.mem_cons, not_or] at hzero
      obtain ⟨htype, w, htakes, hw⟩ := ih hzero.2 (hcut.trans (hkeep hzero.1).symm) h
      refine ⟨htype, _, htakes.cons, fun hlines => ?_⟩
      unfold StringLines at hlines
      rw [if_neg hcq, if_neg hcb] at hlines
      exact newLines_kept (mt List.mem_singleton.1 (Ne.symm hcn)) (hw hlines)

/-! ## The other loops -/

theorem constantLoop_lines (h : constantLoop token buf cnt = .token text type n) :
    type = .constant ∧
      ∃ w v, Takes buf w cnt n ∧ text = token ++ v ∧ lineFeeds w = lineFeeds v := by
  induction token, buf, cnt using constantLoop.induct with
  | case1 token cnt =>
      cases h
      exact ⟨rfl, [], [], .nil _ _, (List.append_nil _).symm, rfl⟩
  | case2 token buf cnt =>
      unfold constantLoop at h
      rw [if_pos rfl] at h
      cases h
      exact ⟨rfl, _, [], (Takes.nil _ _).cons, (List.append_nil _).symm,
        lineFeeds_eq_zero (by decide)⟩
  | case3 token cnt _ =>
      unfold constantLoop at h
      rw [if_neg (by decide), if_pos rfl] at h
      cases h
  | case4 token cnt d buf _ ih =>
      unfold constantLoop at h
      rw [if_neg (by decide), if_pos rfl] at h
      obtain ⟨htype, w, v, htakes, htext, hw⟩ := ih h
      refine ⟨htype, _, chr '\\' :: d :: v, htakes.append (v := [chr '\\', d]), ?_, ?_⟩
      · rw [htext, List.append_assoc]
        rfl
      · rw [lineFeeds_append, hw, ← lineFeeds_append]
        rfl
  | case5 token c buf cnt hquote hback hline =>
      unfold constantLoop at h
      rw [if_neg hquote, if_neg hback, if_pos hline] at h
      cases h
  | case6 token c buf cnt hquote hback hline ih =>
      unfold constantLoop at h
      rw [if_neg hquote, if_neg hback, if_neg hline] at h
      obtain ⟨htype, w, v, htakes, htext, hw⟩ := ih h
      refine ⟨htype, _, c :: v, htakes.cons, ?_, ?_⟩
      · rw [htext, List.append_assoc]
        rfl
      · rw [lineFeeds_cons, hw, ← lineFeeds_cons]

theorem defineLoop_lines (h : defineLoop token buf cnt = .token text type n) :
    type = .poundDefine ∧ ∃ w, Takes buf w cnt n ∧ text = token ++ w := by
  induction token, buf, cnt using defineLoop.induct with
  | case1 token cnt => cases h
  | case2 token buf cnt =>
      unfold defineLoop at h
      rw [if_pos rfl] at h
      cases h
      exact ⟨rfl, [], .nil _ _, (List.append_nil _).symm⟩
  | case3 token cnt _ =>
      unfold defineLoop at h
      rw [if_neg (by decide), if_pos rfl] at h
      cases h
  | case4 token cnt d buf _ ih =>
      unfold defineLoop at h
      rw [if_neg (by decide), if_pos rfl] at h
      obtain ⟨htype, w, htakes, htext⟩ := ih h
      refine ⟨htype, _, htakes.append (v := [chr '\\', d]), ?_⟩
      rw [htext, List.append_assoc]
  | case5 token c buf cnt hline hback ih =>
      unfold defineLoop at h
      rw [if_neg hline, if_neg hback] at h
      obtain ⟨htype, w, htakes, htext⟩ := ih h
      refine ⟨htype, _, htakes.cons, ?_⟩
      rw [htext, List.append_assoc]
      rfl

theorem commentLoop_lines (h : commentLoop token buf cnt = .token text type n) :
    type = .comment ∧ ∃ w, Takes buf w cnt n ∧ text = token ++ w := by
  induction buf generalizing token cnt with
  | nil => cases h
  | cons c buf ih =>
      rw [commentLoop] at h
      by_cases hopen : c = chr '/' ∧ firstByte buf = chr '*'
      · rw [if_pos hopen] at h
        cases h
      rw [if_neg hopen] at h
      by_cases hclose : c = chr '*' ∧ firstByte buf = chr '/'
      · rw [if_pos hclose] at h
        cases h
        obtain ⟨rfl, hnext⟩ := hclose
        cases buf with
        | nil => exact absurd hnext (by decide)
        | cons d buf =>
            obtain rfl : d = chr '/' := hnext
            exact ⟨rfl, [chr '*', chr '/'], ⟨⟨buf, rfl⟩, rfl⟩, rfl⟩
      · rw [if_neg hclose] at h
        obtain ⟨htype, w, htakes, htext⟩ := ih h
        refine ⟨htype, _, htakes.cons, ?_⟩
        rw [htext, List.append_assoc]
        rfl

/-- The rest of a line has one line feed, or none at the end of the text. -/
theorem skipLine_lines (h : skipLine token buf cnt = .token text type n) :
    type = .endOfLine ∧ text = token ∧ ∃ w, Takes buf w cnt n ∧
      lineFeeds w = if chr '\n' ∈ buf then 1 else 0 := by
  induction buf generalizing cnt with
  | nil =>
      cases h
      exact ⟨rfl, rfl, [], .nil _ _, rfl⟩
  | cons c buf ih =>
      rw [skipLine] at h
      by_cases hc : c = chr '\n'
      · rw [if_pos hc] at h
        cases h
        refine ⟨rfl, rfl, _, (Takes.nil _ _).cons, ?_⟩
        rw [hc, if_pos List.mem_cons_self]
        rfl
      · rw [if_neg hc] at h
        obtain ⟨htype, htext, w, htakes, hw⟩ := ih h
        refine ⟨htype, htext, _, htakes.cons, ?_⟩
        rw [lineFeeds_cons, if_neg hc, hw, Nat.zero_add]
        exact if_congr (by rw [List.mem_cons, or_iff_right (Ne.symm hc)]) rfl rfl

theorem parseBackslash_lines (h : parseBackslash token cnt buf = .token text type n) :
    type = .other ∧ ∃ w, Takes buf w (cnt + 1) n ∧ lineFeeds w = 0 := by
  cases buf with
  | nil => cases h
  | cons d buf =>
      rw [parseBackslash] at h
      by_cases hd : d = chr 'n' ∨ d = chr 'r'
      · rw [if_pos hd] at h
        cases h
        refine ⟨rfl, [d], (Takes.nil _ _).cons, lineFeeds_eq_zero ?_⟩
        rcases hd with rfl | rfl
        · decide
        · decide
      rw [if_neg hd] at h
      by_cases hx : d = chr 'x'
      · rw [if_pos hx] at h
        subst hx
        by_cases hfirst : isHexDigit (firstByte buf) = true
        · rw [if_pos hfirst] at h
          by_cases hsecond : isHexDigit (firstByte buf.tail) = true
          · rw [if_pos hsecond] at h
            cases h
            have hnot : ∀ {c : UInt8}, isHexDigit c = true → chr '\n' ≠ c := by
              rintro c hc rfl
              exact absurd hc (by decide)
            rcases buf with _ | ⟨a, _ | ⟨b, buf⟩⟩
            · exact absurd hfirst (by decide)
            · exact absurd (show isHexDigit 0 = true from hsecond) (by decide)
            · refine ⟨rfl, [chr 'x', a, b], ⟨⟨buf, rfl⟩, rfl⟩, lineFeeds_eq_zero ?_⟩
              simp only [List.mem_cons, List.not_mem_nil, or_false, not_or]
              exact ⟨by decide, hnot hfirst, hnot hsecond⟩
          · rw [if_neg hsecond] at h
            cases h
            exact ⟨rfl, [chr 'x'], (Takes.nil _ _).cons, lineFeeds_eq_zero (by decide)⟩
        · rw [if_neg hfirst] at h
          cases h
          exact ⟨rfl, [], .nil _ _, rfl⟩
      · rw [if_neg hx] at h
        cases h
        exact ⟨rfl, [], .nil _ _, rfl⟩

/-- No line feed is in front of the data of a directive. -/
theorem directive_front {word : Bytes} (h : word ++ [chr ' '] <+: buf) (hblank : chr ' ' ∉ word)
    (hline : chr '\n' ∉ word) : ∃ front, buf = front ++ directiveData buf ∧ chr '\n' ∉ front := by
  obtain ⟨rest, rfl⟩ := h
  have hword : ∀ c ∈ word, decide (c ≠ chr ' ') = true := by
    intro c hc
    apply decide_eq_true
    rintro rfl
    exact hblank hc
  have hdrop : (word ++ [chr ' '] ++ rest).dropWhile (fun c => decide (c ≠ chr ' ')) =
      chr ' ' :: rest := by
    rw [List.append_assoc, List.dropWhile_append_of_pos hword]
    exact List.dropWhile_cons_of_neg (by decide)
  obtain ⟨blanks, hrest, hblanks, -⟩ :=
    exists_dropWhile (fun c => decide (c = chr ' ')) (chr ' ' :: rest)
  refine ⟨word ++ blanks, ?_, ?_⟩
  · rw [directiveData, hdrop, List.append_assoc, List.append_assoc, ← hrest]
    rfl
  · rw [List.mem_append, not_or]
    exact ⟨hline, fun hmem => absurd (hblanks _ hmem) (by decide)⟩

theorem directiveWord_lines {ignored word : Bytes} {type' : ParseType}
    (hword : word ++ [chr ' '] <+: buf) (hblank : chr ' ' ∉ word) (hline : chr '\n' ∉ word)
    (h : directiveWord ignored type' token buf cnt = .token text type n) :
    type = type' ∧ ∃ w, Takes buf w cnt n ∧ lineFeeds w = 0 := by
  obtain ⟨front, hfront, hnone⟩ := directive_front hword hblank hline
  rw [directiveWord] at h
  by_cases hdata : chr '\n' ∈ directiveData buf
  · rw [if_pos hdata] at h
    obtain ⟨w, hsplit, hw, -⟩ :=
      exists_dropWhile (fun c => decide (c ≠ chr '\n')) (directiveData buf)
    cases h
    generalize (directiveData buf).dropWhile (fun c => decide (c ≠ chr '\n')) = rest at hsplit
    rw [hsplit] at hfront
    refine ⟨rfl, front ++ w, ⟨⟨rest, ?_⟩, ?_⟩, lineFeeds_eq_zero ?_⟩
    · rw [List.append_assoc, ← hfront]
    · rw [hfront]
      simp only [List.length_append]
      omega
    · rw [List.mem_append, not_or]
      exact ⟨hnone, fun hmem => of_decide_eq_true (hw _ hmem) rfl⟩
  · rw [if_neg hdata] at h
    cases h

end

/-! ## A call of `parse()` -/

/-- A token that is the end of a line takes a line feed: it is no semicolon, no carriage return, and
no comment at the end of the text. -/
def EndsLine (source text : Bytes) : Prop :=
  text ≠ cstr ";" ∧ firstByte (withoutPassed source) ≠ chr '\r' ∧ chr '\n' ∈ source

instance (source text : Bytes) : Decidable (EndsLine source text) :=
  inferInstanceAs (Decidable (_ ∧ _))

def behindQuote (source : Bytes) : Bytes := (source.dropWhile (· ≠ chr '"')).tail

def KindLines (source text w : Bytes) : ParseType → Prop
  | .endOfLine => lineFeeds w = if EndsLine source text then 1 else 0
  | .constant => lineFeeds w = lineFeeds text
  | .poundDefine | .comment => lineFeeds w = newLines text
  | .string => StringLines false (behindQuote source) → lineFeeds w = newLines text
  | _ => lineFeeds w = 0

def ParseBranch.First (c : UInt8) : ParseBranch → Prop
  | .string => c = chr '"'
  | .constant => c = chr '\''
  | .comment => c = chr '/'
  | .comparison => c ∈ cstr "<>=!"
  | .punctuation => c ∈ cstr "(),$-+/*&|^:.~"
  | _ => True

section

variable {ppFlag : Bool} {source text : Bytes} {parsed : ParseType} {n : ℕ}

theorem parseBranch_first (c : UInt8) (buf : Bytes) :
    (parseBranch [] true ppFlag c buf).First c := by
  unfold parseBranch
  refine iteInduction (fun _ => trivial) fun _ => ?_
  refine iteInduction (fun _ => trivial) fun _ => ?_
  refine iteInduction (fun h => h) fun _ => ?_
  refine iteInduction (fun h => h) fun _ => ?_
  refine iteInduction (fun _ => trivial) fun _ => ?_
  refine iteInduction (fun _ => trivial) fun _ => ?_
  refine iteInduction (fun _ => trivial) fun _ => ?_
  refine iteInduction (fun _ => trivial) fun _ => ?_
  refine iteInduction (fun _ => trivial) fun _ => ?_
  refine iteInduction (fun _ => trivial) fun _ => ?_
  refine iteInduction (fun _ => trivial) fun _ => ?_
  refine iteInduction (fun _ => trivial) fun _ => ?_
  refine iteInduction (fun h => h.1) fun _ => ?_
  refine iteInduction (fun h => h) fun _ => ?_
  refine iteInduction (fun h => h) fun _ => ?_
  refine iteInduction (fun _ => trivial) fun _ => ?_
  exact iteInduction (fun _ => trivial) fun _ => trivial

structure Front (source : Bytes) (s : ParseState) : Prop where
  wordlike : ∀ c ∈ s.token, IsWordlike c
  without : withoutPassed source = s.token ++ s.buf
  taken : ∃ v, source = v ++ s.buf ∧ s.cnt = v.length ∧ chr '\n' ∉ v
  quote : ∀ buf, s.buf = chr '"' :: buf → behindQuote source = buf
  type : s.type = .null ∨ s.type = .number ∨ s.type = .name
  no_zero : 0 ∉ s.buf

theorem Front.line {s : ParseState} (h : Front source s) :
    chr '\n' ∈ source ↔ chr '\n' ∈ s.buf := by
  obtain ⟨v, hsplit, -, hline⟩ := h.taken
  rw [hsplit, List.mem_append, or_iff_right hline]

theorem Front.notMem {s : ParseState} (h : Front source s) {c : UInt8} (hc : ¬ IsWordlike c) :
    c ∉ s.token :=
  fun hmem => hc (h.wordlike c hmem)

theorem Front.result {s : ParseState} (h : Front source s) (w : Bytes) (hw : lineFeeds w = 0) :
    KindLines source text w s.type := by
  rcases h.type with htype | htype | htype
  · rw [htype]
    exact hw
  · rw [htype]
    exact hw
  · rw [htype]
    exact hw

/-- At a comment, a word in front of it is neither a semicolon nor a carriage return. -/
theorem Front.endsLine_comment {s : ParseState} (h : Front source s) {c : UInt8} {buf : Bytes}
    (hbuf : s.buf = c :: buf) (hc : c = chr '#' ∨ c = chr '/') :
    EndsLine source s.token ↔ chr '\n' ∈ buf := by
  have hsemicolon : s.token ≠ cstr ";" := by
    intro heq
    have hmem : chr ';' ∈ s.token := by
      rw [heq]
      exact List.mem_cons_self
    exact h.notMem (by decide) hmem
  have hreturn : firstByte (withoutPassed source) ≠ chr '\r' := by
    rw [h.without, hbuf]
    cases htoken : s.token with
    | nil =>
        rcases hc with rfl | rfl
        · exact (by decide : chr '#' ≠ chr '\r')
        · exact (by decide : chr '/' ≠ chr '\r')
    | cons d token =>
        rintro rfl
        refine @Front.notMem _ _ h (chr '\r') (by decide) ?_
        rw [htoken]
        exact List.mem_cons_self
  have hline : chr '\n' ∈ source ↔ chr '\n' ∈ buf := by
    rw [h.line, hbuf, List.mem_cons, or_iff_right]
    rcases hc with rfl | rfl
    · decide
    · decide
  rw [EndsLine, hline]
  exact ⟨fun hends => hends.2.2, fun hmem => ⟨hsemicolon, hreturn, hmem⟩⟩

theorem Front.endOfLine {s : ParseState} (h : Front source s) {c : UInt8} {buf : Bytes}
    (hbuf : s.buf = c :: buf) (htoken : s.token = []) (hc : c ∈ cstr "\n\r;")
    (hparse : (if c = chr '\r' ∧ firstByte buf = chr '\n' then
        .token [chr '\n'] .endOfLine (s.cnt + 1)
      else if c = chr '\n' ∨ c = chr ';' then .token [c] .endOfLine (s.cnt + 1)
      else .token [] .endOfLine s.cnt) = Parsed.token text parsed n) :
    ∃ w, Takes s.buf w s.cnt n ∧ KindLines source text w parsed := by
  have hwithout := h.without
  rw [htoken, hbuf, List.nil_append] at hwithout
  have hreturn : c = chr '\r' → ¬ EndsLine source text := by
    rintro rfl hends
    rw [EndsLine, hwithout] at hends
    exact hends.2.1 rfl
  rw [hbuf]
  by_cases hpair : c = chr '\r' ∧ firstByte buf = chr '\n'
  · rw [if_pos hpair] at hparse
    have hnot := hreturn hpair.1
    cases hparse
    refine ⟨[c], (Takes.nil _ _).cons, ?_⟩
    rw [KindLines, if_neg hnot, hpair.1]
    exact lineFeeds_eq_zero (by decide)
  rw [if_neg hpair] at hparse
  by_cases hends : c = chr '\n' ∨ c = chr ';'
  · rw [if_pos hends] at hparse
    cases hparse
    refine ⟨[c], (Takes.nil _ _).cons, ?_⟩
    rcases hends with rfl | rfl
    · have hmem : chr '\n' ∈ source := by
        rw [h.line, hbuf]
        exact List.mem_cons_self
      have hline : EndsLine source [chr '\n'] := by
        refine ⟨by decide, ?_, hmem⟩
        rw [hwithout]
        exact (by decide : chr '\n' ≠ chr '\r')
      rw [KindLines, if_pos hline]
      rfl
    · have hnot : ¬ EndsLine source [chr ';'] := fun hline => hline.1 rfl
      rw [KindLines, if_neg hnot]
      exact lineFeeds_eq_zero (by decide)
  · rw [if_neg hends] at hparse
    have hc : c = chr '\r' := by
      rw [not_or] at hends
      have hmem : c ∈ [chr '\n', chr '\r', chr ';'] := hc
      simp only [List.mem_cons, List.not_mem_nil, or_false, hends, false_or] at hmem
      exact hmem
    have hnot := hreturn hc
    cases hparse
    refine ⟨[], .nil _ _, ?_⟩
    rw [KindLines, if_neg hnot]
    rfl

theorem parseEnd_lines {s : ParseState} (hfront : Front source s)
    (h : parseEnd [] true ppFlag s = .token text parsed n) :
    ∃ w, Takes s.buf w s.cnt n ∧ KindLines source text w parsed := by
  have hresult : ∀ {n}, Parsed.token s.token s.type s.cnt = .token text parsed n →
      ∃ w, Takes s.buf w s.cnt n ∧ KindLines source text w parsed := by
    rintro n ⟨⟩
    exact ⟨[], .nil _ _, hfront.result [] rfl⟩
  have hzero := hfront.no_zero
  have hnone := @Front.notMem _ _ hfront (chr '\n') (by decide)
  have hnoNul := @Front.notMem _ _ hfront 0 (by decide)
  have hdata : ∀ {w : Bytes}, w ⊆ s.buf → newLines (s.token ++ w) = lineFeeds w := by
    intro w hw
    have hnot : 0 ∉ s.token ++ w := by
      rw [List.mem_append, not_or]
      exact ⟨hnoNul, fun hmem => hzero (hw hmem)⟩
    rw [newLines_eq hnot, lineFeeds_append, lineFeeds_eq_zero hnone, Nat.zero_add]
  unfold parseEnd at h
  cases hbuf : s.buf with
  | nil =>
      rw [hbuf] at h
      rw [← hbuf]
      exact hresult h
  | cons c buf =>
      have hsees := @parseBranch_sees [] true ppFlag c buf
      have hfirst := @parseBranch_first ppFlag c buf
      have hstarts := @parseBranch_starts ppFlag c buf
      rw [hbuf] at h hzero hdata
      rw [List.mem_cons, not_or] at hzero
      dsimp only at h
      generalize parseBranch [] true ppFlag c buf = branch at *
      cases branch with
      | number => exact hbuf ▸ hresult h
      | name => exact hbuf ▸ hresult h
      | noParse => exact hbuf ▸ hresult h
      | other => exact hbuf ▸ hresult h
      | string =>
          obtain rfl : c = chr '"' := hfirst
          have hcut : false = true ↔ 0 ∈ s.token := iff_of_false Bool.false_ne_true hnoNul
          obtain ⟨rfl, w, htakes, hlines⟩ := stringLoop_lines hzero.2 hcut h
          refine ⟨_, htakes.cons, fun hstring => ?_⟩
          rw [hfront.quote buf hbuf] at hstring
          rw [hlines hstring, newLines_eq hnoNul, lineFeeds_eq_zero hnone, lineFeeds_cons,
            if_neg (by decide)]
      | constant =>
          obtain rfl : c = chr '\'' := hfirst
          obtain ⟨rfl, w, v, htakes, rfl, hlines⟩ := constantLoop_lines h
          refine ⟨_, htakes.cons, ?_⟩
          rw [KindLines, lineFeeds_cons, if_neg (by decide), hlines, lineFeeds_append,
            lineFeeds_eq_zero hnone]
      | poundInclude =>
          obtain ⟨rfl, hw⟩ := @directiveWord_lines _ _ _ _ _ _ _ (cstr "#include") _ hsees
            (by decide) (by decide) h
          exact hw
      | poundDefine =>
          obtain ⟨front, hsplit, hline⟩ := @directive_front _ (cstr "#define") hsees (by decide)
            (by decide)
          obtain ⟨rfl, w, htakes, rfl⟩ := defineLoop_lines h
          have hlength : (c :: buf).length - (directiveData (c :: buf)).length = front.length := by
            rw [hsplit, List.length_append, ← hsplit, Nat.add_sub_cancel]
          rw [hlength] at htakes
          have hwhole := htakes.append
          rw [← hsplit] at hwhole
          have hsubset : w ⊆ c :: buf := fun d hd => hwhole.1.subset (List.mem_append_right _ hd)
          refine ⟨_, hwhole, ?_⟩
          rw [KindLines, hdata hsubset, lineFeeds_append, lineFeeds_eq_zero hline, Nat.zero_add]
      | poundIfdef =>
          obtain ⟨rfl, hw⟩ := @directiveWord_lines _ _ _ _ _ _ _ (cstr "#ifdef") _ hsees
            (by decide) (by decide) h
          exact hw
      | poundElse =>
          cases h
          exact ⟨cstr "#else", ⟨hsees, rfl⟩, lineFeeds_eq_zero (by decide)⟩
      | poundEndif =>
          cases h
          exact ⟨cstr "#endif", ⟨hsees, rfl⟩, lineFeeds_eq_zero (by decide)⟩
      | lineComment =>
          obtain ⟨rfl, rfl, w, htakes, hlines⟩ := skipLine_lines h
          refine ⟨_, htakes.cons, ?_⟩
          have hc : c ≠ chr '\n' := by
            rcases hstarts with rfl | rfl
            · decide
            · decide
          rw [KindLines, lineFeeds_cons, if_neg hc, hlines, Nat.zero_add]
          exact if_congr (hfront.endsLine_comment hbuf hstarts).symm rfl rfl
      | comment =>
          obtain rfl : c = chr '/' := hfirst
          obtain ⟨d, buf, rfl⟩ := List.exists_cons_of_length_pos
            (firstByte_ne_zero hsees (by decide))
          obtain rfl : d = chr '*' := hsees
          obtain ⟨rfl, w, htakes, rfl⟩ := commentLoop_lines h
          have hwhole := htakes.append (v := [chr '/', chr '*'])
          refine ⟨_, hwhole, ?_⟩
          rw [KindLines, List.append_assoc, hdata hwhole.1.subset]
      | comparison =>
          dsimp only at h
          by_cases htoken : s.token ≠ []
          · rw [if_pos htoken] at h
            exact hbuf ▸ hresult h
          rw [if_neg htoken] at h
          have hc : chr '\n' ≠ c := by
            rintro rfl
            exact absurd hfirst (by decide : chr '\n' ∉ cstr "<>=!")
          by_cases hequal : firstByte buf = chr '='
          · rw [if_pos hequal] at h
            obtain ⟨d, buf, rfl⟩ := List.exists_cons_of_length_pos
              (firstByte_ne_zero hequal (by decide))
            obtain rfl : d = chr '=' := hequal
            cases h
            refine ⟨[c, chr '='], ⟨⟨buf, rfl⟩, rfl⟩, lineFeeds_eq_zero ?_⟩
            rw [List.mem_cons, not_or]
            exact ⟨hc, by decide⟩
          · rw [if_neg hequal] at h
            cases h
            exact ⟨[c], (Takes.nil _ _).cons, lineFeeds_eq_zero (mt List.mem_singleton.1 hc)⟩
      | punctuation =>
          dsimp only at h
          by_cases htoken : s.token ≠ []
          · rw [if_pos htoken] at h
            exact hbuf ▸ hresult h
          rw [if_neg htoken] at h
          have hc : chr '\n' ≠ c := by
            rintro rfl
            exact absurd hfirst (by decide : chr '\n' ∉ cstr "(),$-+/*&|^:.~")
          cases h
          exact ⟨[c], (Takes.nil _ _).cons, lineFeeds_eq_zero (mt List.mem_singleton.1 hc)⟩
      | backslash =>
          dsimp only at h
          by_cases htoken : s.token ≠ []
          · rw [if_pos htoken] at h
            exact hbuf ▸ hresult h
          rw [if_neg htoken] at h
          obtain rfl : c = chr '\\' := hstarts
          obtain ⟨rfl, w, htakes, hlines⟩ := parseBackslash_lines h
          refine ⟨_, htakes.cons, (lineFeeds_cons _ w).trans ?_⟩
          rw [if_neg (by decide), hlines]
      | endOfLine =>
          dsimp only at h
          by_cases htoken : s.token ≠ []
          · rw [if_pos htoken] at h
            exact hbuf ▸ hresult h
          rw [if_neg htoken] at h
          exact hbuf ▸ hfront.endOfLine hbuf (not_not.1 htoken) hsees h

theorem front_stopAt (hzero : 0 ∉ source) : Front source (stopAt ppFlag source) := by
  obtain ⟨hwithout, hwordlike⟩ := stopAt_withoutPassed ppFlag source
  obtain ⟨p, q, htakes⟩ := stopAt_takes ppFlag source
  have htoken : (stopAt ppFlag source).token = q := htakes.token_eq
  have hsplit : source = p ++ (q ++ (stopAt ppFlag source).buf) := htakes.buf_eq
  have hpassed : ∀ {c : UInt8}, ¬ IsPassed c → c ∉ p := fun hc hmem => hc (htakes.passed _ hmem)
  have hword : ∀ {c : UInt8}, ¬ IsWordlike c → c ∉ q := fun hc hmem => hc (htakes.wordlike _ hmem)
  refine ⟨hwordlike, hwithout, ?_, ?_, ?_, ?_⟩
  · refine ⟨p ++ q, ?_, ?_, ?_⟩
    · rw [List.append_assoc, ← hsplit]
    · rw [htakes.cnt_eq, List.length_append, Nat.zero_add]
    · rw [List.mem_append, not_or]
      exact ⟨hpassed (by decide), hword (by decide)⟩
  · intro buf hbuf
    have hall : ∀ c ∈ p ++ q, decide (c ≠ chr '"') = true := by
      intro c hc
      apply decide_eq_true
      rintro rfl
      rcases List.mem_append.1 hc with hc | hc
      · exact hpassed (by decide) hc
      · exact hword (by decide) hc
    rw [behindQuote, hsplit, hbuf, ← List.append_assoc, List.dropWhile_append_of_pos hall]
    rfl
  · rcases htakes.type_eq with ⟨-, htype⟩ | htype | htype
    · exact .inl htype
    · exact .inr (.inl htype)
    · exact .inr (.inr htype)
  · intro hmem
    rw [hsplit] at hzero
    exact hzero (List.mem_append_right _ (List.mem_append_right _ hmem))

theorem KindLines.congr {w w' : Bytes} (h : KindLines source text w parsed)
    (hlines : lineFeeds w' = lineFeeds w) : KindLines source text w' parsed := by
  cases parsed with
  | string => exact fun hstring => hlines.trans (h hstring)
  | _ => exact hlines.trans h

/-- A token takes a part of the source, with the line feeds that its kind says. -/
theorem parse_lines (hzero : 0 ∉ source) (h : parse source [] true ppFlag = .token text parsed n) :
    ∃ w rest, source = w ++ rest ∧ n = w.length ∧ KindLines source text w parsed := by
  have hfront := @front_stopAt ppFlag source hzero
  obtain ⟨w, ⟨⟨rest, hrest⟩, hn⟩, hlines⟩ := parseEnd_lines hfront h
  obtain ⟨v, hsplit, hcnt, hnone⟩ := hfront.taken
  refine ⟨v ++ w, rest, ?_, ?_, hlines.congr ?_⟩
  · rw [List.append_assoc, hrest, ← hsplit]
  · rw [hn, hcnt, List.length_append]
  · rw [lineFeeds_append, lineFeeds_eq_zero hnone, Nat.zero_add]

end

/-! ## A call of `get_token()` -/

structure PpLibrary.Words (lib : PpLibrary) : Prop where
  tokenType : ∀ text, TT_UNKNOWN ≤ lib.tokenType text
  functionType : ∀ text, TT_UNKNOWN ≤ lib.functionType text

structure TypeLines (source text w : Bytes) (type : UInt8) : Prop where
  endOfLine : type = TT_END_OF_LINE → lineFeeds w = if EndsLine source text then 1 else 0
  constant : type = TT_CONSTANT → lineFeeds w = lineFeeds text
  data : type = TT_POUND_DEFINE ∨ type = TT_COMMENT → lineFeeds w = newLines text
  string : type = TT_STRING → StringLines false (behindQuote source) → lineFeeds w = newLines text
  other : type ≠ TT_END_OF_LINE → type ≠ TT_CONSTANT → type ≠ TT_STRING →
    ¬ (type = TT_POUND_DEFINE ∨ type = TT_COMMENT) → lineFeeds w = 0

section

variable {lib : PpLibrary} {ppFlag : Bool} {source text rest w : Bytes} {type : UInt8}

theorem TypeLines.none (hw : lineFeeds w = 0)
    (h : type ≠ TT_END_OF_LINE ∧ type ≠ TT_CONSTANT ∧ type ≠ TT_STRING ∧ type ≠ TT_POUND_DEFINE ∧
      type ≠ TT_COMMENT) : TypeLines source text w type := by
  obtain ⟨hline, hconstant, hstring, hdefine, hcomment⟩ := h
  exact ⟨fun heq => absurd heq hline, fun heq => absurd heq hconstant,
    fun heq => (heq.elim hdefine hcomment).elim, fun heq => absurd heq hstring, fun _ _ _ _ => hw⟩

theorem TypeLines.word (hw : lineFeeds w = 0)
    (h : TT_UNKNOWN ≤ type ∨ type = TT_VARIABLE ∨ type = TT_IDENTIFIER) :
    TypeLines source text w type ∧ type ≠ TT_LINE_NUMBER := by
  have hne : ∀ t : UInt8, ¬ (TT_UNKNOWN ≤ t ∨ t = TT_VARIABLE ∨ t = TT_IDENTIFIER) → type ≠ t := by
    rintro t ht rfl
    exact ht h
  exact ⟨.none hw ⟨hne _ (by decide), hne _ (by decide), hne _ (by decide), hne _ (by decide),
    hne _ (by decide)⟩, hne _ (by decide)⟩

theorem nameToken_type (hlib : lib.Words) {text' : Bytes}
    (h : nameToken lib ppFlag text rest = .token type text' w) :
    TT_UNKNOWN ≤ type ∨ type = TT_VARIABLE ∨ type = TT_IDENTIFIER := by
  obtain ⟨-, ⟨-, rfl⟩ | ⟨-, -, rfl⟩ | ⟨-, -, next, parsed, cnt, -, rfl⟩⟩ :=
    Reading.nameToken_cases h
  · exact .inr (.inl rfl)
  · exact .inl (hlib.tokenType text)
  · split
    · exact .inl (hlib.functionType text)
    · exact .inr (.inr rfl)

/-- What a call takes of its source, which has no line feed that the type of the token does not
tell of. -/
theorem getTokenText_lines (hlib : lib.Words)
    (h : getTokenText lib ppFlag source = .token type text rest) :
    (∃ w, cString source = w ++ rest ∧ TypeLines (cString source) text w type) ∧
      type ≠ TT_LINE_NUMBER := by
  obtain ⟨parsed, cnt, hparse, hrest, -⟩ := Reading.getTokenText_token h
  obtain ⟨w, rest', hsplit, rfl, hlines⟩ := parse_lines (zero_notMem_cString source) hparse
  have htaken : cString source = w ++ rest := by
    rw [hrest, hsplit, List.drop_left]
  suffices hkind : TypeLines (cString source) text w type ∧ type ≠ TT_LINE_NUMBER from
    ⟨⟨w, htaken, hkind.1⟩, hkind.2⟩
  rw [getTokenText, hparse] at h
  cases parsed with
  | name => exact TypeLines.word hlines (nameToken_type hlib h)
  | other =>
      cases h
      exact TypeLines.word hlines (.inl (hlib.tokenType _))
  | endOfLine =>
      cases h
      exact ⟨⟨fun _ => hlines, fun heq => absurd heq (by decide), fun heq => absurd heq (by decide),
        fun heq => absurd heq (by decide), fun hne => absurd rfl hne⟩, by decide⟩
  | constant =>
      cases h
      exact ⟨⟨fun heq => absurd heq (by decide), fun _ => hlines, fun heq => absurd heq (by decide),
        fun heq => absurd heq (by decide), fun _ hne => absurd rfl hne⟩, by decide⟩
  | string =>
      cases h
      exact ⟨⟨fun heq => absurd heq (by decide), fun heq => absurd heq (by decide),
        fun heq => absurd heq (by decide), fun _ => hlines, fun _ _ hne => absurd rfl hne⟩,
        by decide⟩
  | poundDefine =>
      cases h
      exact ⟨⟨fun heq => absurd heq (by decide), fun heq => absurd heq (by decide), fun _ => hlines,
        fun heq => absurd heq (by decide), fun _ _ _ hnot => absurd (.inl rfl) hnot⟩, by decide⟩
  | comment =>
      cases h
      exact ⟨⟨fun heq => absurd heq (by decide), fun heq => absurd heq (by decide), fun _ => hlines,
        fun heq => absurd heq (by decide), fun _ _ _ hnot => absurd (.inr rfl) hnot⟩, by decide⟩
  | _ =>
      cases h
      exact ⟨.none hlines (by decide), by decide⟩

end

end ScOpen
