import ScOpen.Parse

/-!
# What the lexer takes

A token is no longer than the text it is taken from, unless it is made from a backslash, and one
character at least is taken for it, unless that is a carriage return without a newline.
-/

namespace ScOpen

def Parsed.Sized (low size : ℕ) : Parsed → Prop
  | .token text _ cnt => low ≤ cnt ∧ text.length ≤ size
  | _ => True

theorem Parsed.Sized.mono {low low' size size' : ℕ} {r : Parsed} (h : r.Sized low' size)
    (hlow : low ≤ low') (hsize : size ≤ size') : r.Sized low size' := by
  cases r with
  | token text type cnt => exact ⟨hlow.trans h.1, h.2.trans hsize⟩
  | ppError => exact trivial
  | overrun => exact trivial

theorem stringLoop_sized (token buf : Bytes) (cnt : ℕ) :
    (stringLoop token buf cnt).Sized cnt (token.length + buf.length) := by
  induction token, buf, cnt using stringLoop.induct with
  | case1 token cnt => exact ⟨le_refl _, Nat.le_add_right _ _⟩
  | case2 token buf cnt =>
      unfold stringLoop
      rw [if_pos rfl]
      exact ⟨Nat.le_succ _, Nat.le_add_right _ _⟩
  | case3 token cnt _ =>
      unfold stringLoop
      rw [if_neg (by decide), if_pos rfl]
      exact trivial
  | case4 token cnt buf _ ih =>
      unfold stringLoop
      rw [if_neg (by decide), if_pos rfl]
      refine ih.mono (Nat.le_add_right _ _) ?_
      simp only [List.length_append, List.length_cons]
      exact (Nat.add_right_comm _ 2 _).le
  | case5 token cnt buf _ hrn ih =>
      unfold stringLoop
      rw [if_neg (by decide), if_pos rfl]
      dsimp only
      rw [if_neg hrn, if_pos rfl]
      refine ih.mono (Nat.le_add_right _ _) ?_
      simp only [List.length_append, List.length_cons]
      exact (Nat.add_right_comm _ 2 _).le
  | case6 token cnt a b buf _ hxn hxr ih =>
      unfold stringLoop
      rw [if_neg (by decide), if_pos rfl]
      dsimp only
      rw [if_neg hxn, if_neg hxr, if_pos rfl]
      refine ih.mono (Nat.le_add_right _ _) ?_
      simp only [List.length_append, List.length_cons, List.length_nil]
      omega
  | case7 token cnt buf hshort _ hxn hxr =>
      unfold stringLoop
      rw [if_neg (by decide), if_pos rfl]
      dsimp only
      rw [if_neg hxn, if_neg hxr, if_pos rfl]
      cases buf with
      | nil => exact trivial
      | cons a buf =>
          cases buf with
          | nil => exact trivial
          | cons b buf => exact (hshort a b buf rfl).elim
  | case8 token cnt d buf hdn hdr hdx _ ih =>
      unfold stringLoop
      rw [if_neg (by decide), if_pos rfl]
      dsimp only
      rw [if_neg hdn, if_neg hdr, if_neg hdx]
      refine ih.mono (Nat.le_add_right _ _) ?_
      simp only [List.length_append, List.length_cons, List.length_nil]
      omega
  | case9 token buf cnt hnq hnb =>
      unfold stringLoop
      rw [if_neg hnq, if_neg hnb, if_pos rfl]
      exact trivial
  | case10 token c buf cnt hcq hcb hcn ih =>
      unfold stringLoop
      rw [if_neg hcq, if_neg hcb, if_neg hcn]
      refine ih.mono (Nat.le_succ _) ?_
      simp only [List.length_append, List.length_cons, List.length_nil]
      omega

theorem constantLoop_sized (token buf : Bytes) (cnt : ℕ) :
    (constantLoop token buf cnt).Sized cnt (token.length + buf.length) := by
  induction token, buf, cnt using constantLoop.induct with
  | case1 token cnt => exact ⟨le_refl _, Nat.le_add_right _ _⟩
  | case2 token buf cnt =>
      unfold constantLoop
      rw [if_pos rfl]
      exact ⟨Nat.le_succ _, Nat.le_add_right _ _⟩
  | case3 token cnt _ =>
      unfold constantLoop
      rw [if_neg (by decide), if_pos rfl]
      exact trivial
  | case4 token cnt d buf _ ih =>
      unfold constantLoop
      rw [if_neg (by decide), if_pos rfl]
      refine ih.mono (Nat.le_add_right _ _) ?_
      simp only [List.length_append, List.length_cons, List.length_nil]
      omega
  | case5 token c buf cnt hcq hcb hnext =>
      unfold constantLoop
      rw [if_neg hcq, if_neg hcb, if_pos hnext]
      exact trivial
  | case6 token c buf cnt hcq hcb hnext ih =>
      unfold constantLoop
      rw [if_neg hcq, if_neg hcb, if_neg hnext]
      refine ih.mono (Nat.le_succ _) ?_
      simp only [List.length_append, List.length_cons, List.length_nil]
      omega

theorem defineLoop_sized (token buf : Bytes) (cnt : ℕ) :
    (defineLoop token buf cnt).Sized cnt (token.length + buf.length) := by
  induction token, buf, cnt using defineLoop.induct with
  | case1 token cnt => exact trivial
  | case2 token cnt buf =>
      unfold defineLoop
      rw [if_pos rfl]
      exact ⟨le_refl _, Nat.le_add_right _ _⟩
  | case3 token cnt _ =>
      unfold defineLoop
      rw [if_neg (by decide), if_pos rfl]
      exact trivial
  | case4 token cnt d buf _ ih =>
      unfold defineLoop
      rw [if_neg (by decide), if_pos rfl]
      refine ih.mono (Nat.le_add_right _ _) ?_
      simp only [List.length_append, List.length_cons, List.length_nil]
      omega
  | case5 token cnt c buf hcn hcb ih =>
      unfold defineLoop
      rw [if_neg hcn, if_neg hcb]
      refine ih.mono (Nat.le_succ _) ?_
      simp only [List.length_append, List.length_cons, List.length_nil]
      omega

theorem commentLoop_sized (token buf : Bytes) (cnt : ℕ) :
    (commentLoop token buf cnt).Sized cnt (token.length + buf.length) := by
  induction buf generalizing token cnt with
  | nil => exact trivial
  | cons c buf ih =>
      rw [commentLoop]
      by_cases hopen : c = chr '/' ∧ firstByte buf = chr '*'
      · rw [if_pos hopen]
        exact trivial
      rw [if_neg hopen]
      by_cases hclose : c = chr '*' ∧ firstByte buf = chr '/'
      · rw [if_pos hclose]
        have hone : 1 ≤ buf.length := firstByte_ne_zero hclose.2 (by decide)
        refine ⟨Nat.le_add_right _ _, ?_⟩
        simp only [List.length_append, List.length_cons, List.length_nil]
        omega
      · rw [if_neg hclose]
        refine (ih (token ++ [c]) (cnt + 1)).mono (Nat.le_succ _) ?_
        simp only [List.length_append, List.length_cons, List.length_nil]
        omega

theorem skipLine_sized (token buf : Bytes) (cnt : ℕ) :
    (skipLine token buf cnt).Sized cnt token.length := by
  induction buf generalizing cnt with
  | nil => exact ⟨le_refl _, le_refl _⟩
  | cons c buf ih =>
      rw [skipLine]
      split_ifs
      · exact ⟨Nat.le_succ _, le_refl _⟩
      · exact (ih (cnt + 1)).mono (Nat.le_succ _) (le_refl _)

/-- The word lies in front of the newline, and the blank that ends the directive is counted. -/
theorem directiveWord_sized (ignored token buf : Bytes) (type : ParseType) (cnt : ℕ) :
    (directiveWord ignored type token buf cnt).Sized
      (cnt + (buf.length - (directiveData buf).length)) (token.length + buf.length) := by
  rw [directiveWord]
  by_cases hline : chr '\n' ∈ directiveData buf
  · rw [if_pos hline]
    have hdata := directiveData_length buf
    have hrest : ((directiveData buf).dropWhile (· ≠ chr '\n')).length ≤
        (directiveData buf).length := List.length_dropWhile_le ..
    refine ⟨by omega, ?_⟩
    rw [List.length_append]
    refine Nat.add_le_add_left (List.length_filter_le _ _ |>.trans ?_) _
    exact (List.takeWhile_prefix _).length_le.trans hdata
  · rw [if_neg hline]
    exact trivial

theorem parseBackslash_sized (cnt : ℕ) (buf : Bytes) :
    (parseBackslash [] cnt buf).Sized (cnt + 1) 4 := by
  have htwo : 2 ≤ 4 := by decide
  cases buf with
  | nil => exact trivial
  | cons d buf =>
      rw [parseBackslash]
      refine iteInduction (fun _ => ⟨Nat.le_succ _, htwo⟩) fun _ => ?_
      refine iteInduction (fun _ => ?_) fun _ => ⟨le_refl _, Nat.le_of_succ_le htwo⟩
      refine iteInduction (fun _ => ?_) fun _ => ⟨le_refl _, htwo⟩
      refine iteInduction (fun _ => ?_) fun _ => ?_
      · exact ⟨Nat.le_add_right (cnt + 1) 3, le_refl 4⟩
      · exact ⟨Nat.le_succ _, le_refl 4⟩

/-! ## The loop -/

section

variable {noParse : Bytes} {commentFlag ppFlag : Bool}

theorem numberLoop_token (token buf : Bytes) (cnt : ℕ) (h : token.length ≤ cnt) :
    (numberLoop noParse token buf cnt).token.length ≤ (numberLoop noParse token buf cnt).cnt := by
  induction token, buf, cnt using numberLoop.induct noParse with
  | case1 token c d buf cnt hdigit ih =>
      rw [numberLoop, if_pos hdigit]
      refine ih ?_
      rw [List.length_append]
      exact Nat.succ_le_succ h
  | case2 token c d buf cnt hdigit hexponent ih =>
      rw [numberLoop, if_neg hdigit, if_pos hexponent]
      refine ih ?_
      rw [List.length_append]
      exact Nat.add_le_add_right h 2
  | case3 token c d buf cnt hdigit hexponent hno ih =>
      rw [numberLoop, if_neg hdigit, if_neg hexponent, if_pos hno]
      refine ih ?_
      rw [List.length_append]
      exact Nat.succ_le_succ h
  | case4 token c d buf cnt hdigit hexponent hno =>
      rw [numberLoop, if_neg hdigit, if_neg hexponent, if_neg hno]
      exact h
  | case5 token c cnt hdigit =>
      rw [numberLoop, if_pos hdigit]
      change (token ++ [c]).length ≤ cnt + 1
      rw [List.length_append]
      exact Nat.succ_le_succ h
  | case6 token c cnt hdigit =>
      rw [numberLoop, if_neg hdigit]
      exact h
  | case7 token cnt => exact h

theorem nameLoop_token (token buf : Bytes) (cnt : ℕ) (h : token.length ≤ cnt) :
    (nameLoop token buf cnt).token.length ≤ (nameLoop token buf cnt).cnt := by
  induction buf generalizing token cnt with
  | nil => exact h
  | cons c buf ih =>
      rw [nameLoop]
      split_ifs
      · refine ih _ _ ?_
        rw [List.length_append]
        exact Nat.succ_le_succ h
      · exact h

theorem parseRun_token (n : ℕ) {s : ParseState} (h : s.token.length ≤ s.cnt) :
    (parseRun noParse commentFlag ppFlag n s).token.length ≤
      (parseRun noParse commentFlag ppFlag n s).cnt := by
  induction n generalizing s with
  | zero => exact h
  | succ n ih =>
      rw [parseRun]
      cases hbuf : s.buf with
      | nil => exact h
      | cons c buf =>
          have hc : (s.token ++ [c]).length ≤ s.cnt + 1 := by
            rw [List.length_append]
            exact Nat.succ_le_succ h
          dsimp only
          cases parseBranch noParse commentFlag ppFlag c buf with
          | number => exact ih (numberLoop_token _ _ _ hc)
          | name => exact ih (nameLoop_token _ _ _ hc)
          | noParse => exact ih hc
          | other =>
              dsimp only
              split_ifs
              · exact ih (h.trans (Nat.le_succ _))
              · exact h
          | _ => exact h

def ParseState.Stands (s : ParseState) : Prop :=
  s.cnt = 0 ∧ ∃ buf, s.buf = chr '\r' :: buf ∧ firstByte buf ≠ chr '\n'

theorem parseEnd_sized {s : ParseState} {length : ℕ} (hcounts : s.Counts length)
    (htoken : s.token.length ≤ s.cnt) (hends : s.Ends noParse commentFlag ppFlag)
    (hbuf : s.buf ≠ []) (hstands : ¬ s.Stands) :
    (parseEnd noParse commentFlag ppFlag s).Sized 1 (max length 4) := by
  obtain ⟨hlength, hcnt⟩ := hcounts
  have hresult : s.token ≠ [] → (Parsed.token s.token s.type s.cnt).Sized 1 (max length 4) :=
    fun h => ⟨hcnt h, by omega⟩
  unfold parseEnd
  cases hcons : s.buf with
  | nil => exact absurd hcons hbuf
  | cons c buf =>
      rw [hcons, List.length_cons] at hlength
      have hsees := @parseBranch_sees noParse commentFlag ppFlag c buf
      obtain ⟨hnumber, hname, hno, hother⟩ := hends c buf hcons
      have hdirective : ∀ {text : Bytes}, chr '#' :: text <+: c :: buf →
          1 ≤ s.cnt + ((c :: buf).length - (directiveData (c :: buf)).length) := by
        intro text hpound
        have := directiveData_pound hpound
        rw [List.length_cons]
        omega
      dsimp only
      generalize parseBranch noParse commentFlag ppFlag c buf = b at *
      cases b with
      | number => exact absurd rfl hnumber
      | name => exact absurd rfl hname
      | noParse => exact absurd rfl hno
      | other => exact hresult (hother rfl)
      | string => exact (stringLoop_sized _ _ _).mono (Nat.le_add_left 1 _) (by omega)
      | constant => exact (constantLoop_sized _ _ _).mono (Nat.le_add_left 1 _) (by omega)
      | poundInclude =>
          refine (directiveWord_sized _ _ _ _ _).mono (hdirective hsees) ?_
          rw [List.length_cons]
          omega
      | poundDefine =>
          have hdata := directiveData_length (c :: buf)
          refine (defineLoop_sized _ _ _).mono (hdirective hsees) ?_
          rw [List.length_cons] at hdata
          omega
      | poundIfdef =>
          refine (directiveWord_sized _ _ _ _ _).mono (hdirective hsees) ?_
          rw [List.length_cons]
          omega
      | poundElse => exact ⟨by omega, by omega⟩
      | poundEndif => exact ⟨by omega, by omega⟩
      | lineComment => exact (skipLine_sized _ _ _).mono (Nat.le_add_left 1 _) (by omega)
      | comment =>
          have hle : 1 ≤ buf.length := firstByte_ne_zero hsees (by decide)
          refine (commentLoop_sized _ _ _).mono (by omega) ?_
          simp only [List.length_append, List.length_cons, List.length_nil, List.length_tail]
          omega
      | comparison =>
          refine iteInduction hresult fun _ => ?_
          exact iteInduction (fun _ => ⟨by omega, le_max_of_le_right (by decide : 2 ≤ 4)⟩)
            fun _ => ⟨by omega, le_max_of_le_right (by decide : 1 ≤ 4)⟩
      | punctuation =>
          exact iteInduction hresult fun _ =>
            ⟨by omega, le_max_of_le_right (by decide : 1 ≤ 4)⟩
      | backslash =>
          refine iteInduction hresult fun hnil => ?_
          rw [not_not.1 hnil]
          exact (parseBackslash_sized _ _).mono (Nat.le_add_left 1 _) (le_max_right _ _)
      | endOfLine =>
          refine iteInduction hresult fun hnil => ?_
          refine iteInduction
            (fun _ => ⟨by omega, le_max_of_le_right (by decide : 1 ≤ 4)⟩) fun hpair => ?_
          refine iteInduction
            (fun _ => ⟨by omega, le_max_of_le_right (by decide : 1 ≤ 4)⟩) fun hline => ?_
          refine ⟨?_, Nat.zero_le _⟩
          by_contra hzero
          have hreturn : c = chr '\r' := by
            have hsees : c ∈ [chr '\n', chr '\r', chr ';'] := hsees
            simp only [List.mem_cons, List.not_mem_nil, or_false] at hsees
            tauto
          exact hstands ⟨by omega, buf, hreturn ▸ hcons, fun hnext => hpair ⟨hreturn, hnext⟩⟩

theorem parseRun_cnt_le (n : ℕ) (s : ParseState) :
    s.cnt ≤ (parseRun noParse commentFlag ppFlag n s).cnt := by
  induction n generalizing s with
  | zero => exact le_refl _
  | succ n ih =>
      rw [parseRun]
      cases s.buf with
      | nil => exact le_refl _
      | cons c buf =>
          dsimp only
          cases parseBranch noParse commentFlag ppFlag c buf with
          | number =>
              have hle := (@numberLoop_length noParse (s.token ++ [c]) buf (s.cnt + 1)).1
              exact (Nat.le_of_succ_le hle).trans (ih _)
          | name =>
              have hle := (nameLoop_length (s.token ++ [c]) buf (s.cnt + 1)).1
              exact (Nat.le_of_succ_le hle).trans (ih _)
          | noParse => exact (Nat.le_succ _).trans (ih ⟨s.token ++ [c], .other, buf, s.cnt + 1⟩)
          | other =>
              dsimp only
              split_ifs
              · exact (Nat.le_succ _).trans (ih { s with buf := buf, cnt := s.cnt + 1 })
              · exact le_refl _
          | _ => exact le_refl _

/-- A loop that takes nothing stays where it is. -/
theorem parseRun_stays {n : ℕ} {s : ParseState}
    (h : (parseRun noParse commentFlag ppFlag n s).cnt = s.cnt) :
    parseRun noParse commentFlag ppFlag n s = s := by
  cases n with
  | zero => rfl
  | succ n =>
      rw [parseRun] at h ⊢
      cases hbuf : s.buf with
      | nil => rfl
      | cons c buf =>
          rw [hbuf] at h
          dsimp only at h ⊢
          have hpast : ∀ {s' : ParseState}, s.cnt + 1 ≤ s'.cnt →
              (parseRun noParse commentFlag ppFlag n s').cnt ≠ s.cnt := by
            intro s' hle heq
            have := @parseRun_cnt_le noParse commentFlag ppFlag n s'
            omega
          cases hbranch : parseBranch noParse commentFlag ppFlag c buf with
          | number =>
              rw [hbranch] at h
              exact absurd h (hpast (@numberLoop_length noParse (s.token ++ [c]) buf (s.cnt + 1)).1)
          | name =>
              rw [hbranch] at h
              exact absurd h (hpast (nameLoop_length (s.token ++ [c]) buf (s.cnt + 1)).1)
          | noParse =>
              rw [hbranch] at h
              exact absurd h (hpast (le_refl _))
          | other =>
              rw [hbranch] at h
              dsimp only at h ⊢
              by_cases htoken : s.token = []
              · rw [if_pos htoken] at h
                exact absurd h (hpast (le_refl _))
              · rw [if_neg htoken]
          | _ => rfl

end

/-! ## A call -/

/-- A carriage return without a newline behind it. -/
def AtReturn : Bytes → Prop
  | [] => False
  | c :: buf => c = chr '\r' ∧ firstByte buf ≠ chr '\n'

theorem parse_sized {source noParse : Bytes} {commentFlag ppFlag : Bool} (hne : source ≠ [])
    (hreturn : ¬ AtReturn source) :
    (parse source noParse commentFlag ppFlag).Sized 1 (max source.length 4) := by
  let s : ParseState := ⟨[], .null, source, 0⟩
  let s' := parseRun noParse commentFlag ppFlag source.length s
  have hcounts : s'.Counts source.length :=
    parseRun_counts _ ⟨Nat.zero_add _, fun h => absurd rfl h⟩
  have htoken : s'.token.length ≤ s'.cnt := parseRun_token _ (le_refl 0)
  have hends : s'.Ends noParse commentFlag ppFlag := parseRun_ends (le_refl _)
  change (parseEnd noParse commentFlag ppFlag s').Sized _ _
  by_cases hbuf : s'.buf = []
  · have hlength := hcounts.1
    rw [hbuf, List.length_nil, Nat.add_zero] at hlength
    unfold parseEnd
    rw [hbuf]
    dsimp only
    refine ⟨?_, ?_⟩
    · rw [hlength]
      exact List.length_pos_iff.2 hne
    · rw [hlength] at htoken
      exact htoken.trans (le_max_left _ _)
  · refine parseEnd_sized hcounts htoken hends hbuf ?_
    rintro ⟨hzero, buf, hcons, hnext⟩
    have hstays : s' = s := parseRun_stays hzero
    rw [hstays] at hcons
    have hsource : source = chr '\r' :: buf := hcons
    rw [hsource] at hreturn
    exact hreturn ⟨rfl, hnext⟩

theorem parse_return {source : Bytes} (h : AtReturn source) (ppFlag : Bool) :
    parse source [] true ppFlag = .token [] .endOfLine 0 := by
  cases source with
  | nil => exact absurd h id
  | cons c buf =>
      obtain ⟨rfl, hnext⟩ := h
      have hbranch : parseBranch [] true ppFlag (chr '\r') buf = .endOfLine := by
        cases ppFlag <;> rfl
      have hrun : parseRun [] true ppFlag (chr '\r' :: buf).length
          ⟨[], .null, chr '\r' :: buf, 0⟩ = ⟨[], .null, chr '\r' :: buf, 0⟩ := by
        rw [List.length_cons, parseRun]
        dsimp only
        rw [hbranch]
      rw [parse, hrun]
      unfold parseEnd
      dsimp only
      rw [hbranch]
      dsimp only
      rw [if_neg (not_not.2 rfl), if_neg fun hpair => hnext hpair.2, if_neg (by decide)]

end ScOpen
