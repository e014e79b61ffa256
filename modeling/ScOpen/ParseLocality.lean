import ScOpen.ParseLengths

/-!
# What a token depends on

A token that ends in the first part of a text does not depend on what is behind that part, but for
the few characters that the lexer looks at behind a token.
-/

namespace ScOpen

/-! ## The loops of the branches -/

section

variable {token x : Bytes} {type : ParseType}

/-- What is counted behind `i` characters. -/
theorem Parsed.Sized.behind {r : Parsed} {cnt i j size : ℕ} (h : r.Sized (cnt + i) size)
    (hr : r = .token x type (cnt + j)) :
    ∃ k, j = k + i ∧ r = .token x type (cnt + i + k) ∧ cnt + j = cnt + i + k := by
  subst hr
  have hle : cnt + i ≤ cnt + j := h.1
  obtain ⟨k, rfl⟩ := Nat.exists_eq_add_of_le' (Nat.le_of_add_le_add_left hle)
  have hcnt : cnt + (k + i) = cnt + i + k := by omega
  exact ⟨k, rfl, by rw [hcnt], hcnt⟩

theorem Parsed.count_eq {cnt i j : ℕ} {token' : Bytes} {type' : ParseType}
    (h : Parsed.token token' type' (cnt + i) = .token x type (cnt + j)) : j = i :=
  (Nat.add_left_cancel (Parsed.token.inj h).2.2).symm

theorem firstByte_take {buf : Bytes} {j : ℕ} (hj : 0 < j) (hne : buf ≠ []) (rest : Bytes) :
    firstByte (buf.take j ++ rest) = firstByte buf := by
  obtain ⟨j, rfl⟩ := Nat.exists_eq_add_of_le' hj
  obtain ⟨c, buf, rfl⟩ := List.exists_cons_of_ne_nil hne
  rfl

theorem skipLine_local {buf : Bytes} {cnt j : ℕ}
    (h : skipLine token buf cnt = .token x type (cnt + j)) (hj : j < buf.length) (rest : Bytes) :
    skipLine token (buf.take j ++ rest) cnt = .token x type (cnt + j) := by
  induction buf generalizing cnt j with
  | nil => cases hj
  | cons c buf ih =>
      rw [skipLine] at h
      by_cases hc : c = chr '\n'
      · rw [if_pos hc] at h
        obtain rfl := Parsed.count_eq h
        rw [List.take_succ_cons, List.take_zero, List.cons_append, skipLine, if_pos hc]
        exact h
      · rw [if_neg hc] at h
        obtain ⟨j, rfl, hk, hcnt⟩ := (skipLine_sized token buf (cnt + 1)).behind h
        rw [hcnt, List.take_succ_cons, List.cons_append, skipLine, if_neg hc]
        exact ih hk (Nat.lt_of_succ_lt_succ hj)

/-- The quote that ends a string is in the part that it depends on. -/
theorem scanHexChar_local {buf : Bytes} (hquote : chr '"' ∈ buf) (a b : UInt8) (rest : Bytes) :
    scanHexChar (a :: b :: (buf ++ rest)) = scanHexChar (a :: b :: buf) := by
  have hmem : chr '"' ∈ (a :: b :: buf).dropWhile fun c => decide (c = 32 ∨ 9 ≤ c ∧ c ≤ 13) := by
    have hall : chr '"' ∈ a :: b :: buf := List.mem_cons_of_mem _ (List.mem_cons_of_mem _ hquote)
    rw [← List.takeWhile_append_dropWhile (l := a :: b :: buf)
      (p := fun c => decide (c = 32 ∨ 9 ≤ c ∧ c ≤ 13)), List.mem_append] at hall
    exact hall.resolve_left fun h => absurd (List.mem_takeWhile_imp h) (by decide)
  have happend : (a :: b :: (buf ++ rest)).dropWhile
        (fun c => decide (c = 32 ∨ 9 ≤ c ∧ c ≤ 13)) =
      (a :: b :: buf).dropWhile (fun c => decide (c = 32 ∨ 9 ≤ c ∧ c ≤ 13)) ++ rest := by
    rw [← List.cons_append, ← List.cons_append, List.dropWhile_append, if_neg]
    exact fun h => List.ne_nil_of_mem hmem (List.isEmpty_iff.1 h)
  rw [scanHexChar, scanHexChar, happend]
  generalize (a :: b :: buf).dropWhile (fun c => decide (c = 32 ∨ 9 ≤ c ∧ c ≤ 13)) = w at hmem
  cases w with
  | nil => exact absurd hmem List.not_mem_nil
  | cons c w =>
      cases w with
      | nil =>
          obtain rfl := List.mem_singleton.1 hmem
          have hnone : xdigitValue? (chr '"') = none := by decide
          have hsign : chr '"' ≠ chr '+' ∧ chr '"' ≠ chr '-' := by decide
          simp only [List.cons_append, firstByte, List.headD_cons, hnone, hsign.1, hsign.2, if_false]
      | cons d w => rfl

theorem stringLoop_local {buf : Bytes} {cnt j : ℕ}
    (h : stringLoop token buf cnt = .token x type (cnt + j)) (hj : j < buf.length) :
    chr '"' ∈ buf.take j ∧ ∀ rest,
      stringLoop token (buf.take j ++ rest) cnt = .token x type (cnt + j) := by
  have hquote : chr '\\' ≠ chr '"' := by decide
  induction token, buf, cnt using stringLoop.induct generalizing j with
  | case1 token cnt => cases hj
  | case2 token buf cnt =>
      have hstep : ∀ bs, stringLoop token (chr '"' :: bs) cnt = .token token .string (cnt + 1) := by
        intro bs
        unfold stringLoop
        rw [if_pos rfl]
      rw [hstep] at h
      obtain rfl := Parsed.count_eq h
      refine ⟨List.mem_cons_self, fun rest => ?_⟩
      rw [List.take_succ_cons, List.cons_append, hstep, h]
  | case3 token cnt _ =>
      unfold stringLoop at h
      rw [if_neg hquote, if_pos rfl] at h
      cases h
  | case4 token cnt buf _ ih =>
      have hstep : ∀ bs, stringLoop token (chr '\\' :: chr 'n' :: bs) cnt =
          stringLoop (token ++ cstr "\\n") bs (cnt + 2) := by
        intro bs
        rw [stringLoop.eq_def]
        simp only [if_neg hquote, if_true]
      rw [hstep] at h
      obtain ⟨j, rfl, hk, hcnt⟩ := (stringLoop_sized _ _ _).behind h
      obtain ⟨hmem, hrest⟩ := ih hk (by simp only [List.length_cons] at hj; omega)
      refine ⟨List.mem_cons_of_mem _ (List.mem_cons_of_mem _ hmem), fun rest => ?_⟩
      rw [hcnt, List.take_succ_cons, List.take_succ_cons, List.cons_append, List.cons_append, hstep]
      exact hrest rest
  | case5 token cnt buf _ hrn ih =>
      have hstep : ∀ bs, stringLoop token (chr '\\' :: chr 'r' :: bs) cnt =
          stringLoop (token ++ cstr "\\r") bs (cnt + 2) := by
        intro bs
        rw [stringLoop.eq_def]
        simp only [if_neg hquote, if_neg hrn, if_true]
      rw [hstep] at h
      obtain ⟨j, rfl, hk, hcnt⟩ := (stringLoop_sized _ _ _).behind h
      obtain ⟨hmem, hrest⟩ := ih hk (by simp only [List.length_cons] at hj; omega)
      refine ⟨List.mem_cons_of_mem _ (List.mem_cons_of_mem _ hmem), fun rest => ?_⟩
      rw [hcnt, List.take_succ_cons, List.take_succ_cons, List.cons_append, List.cons_append, hstep]
      exact hrest rest
  | case6 token cnt a b buf _ hxn hxr ih =>
      have hstep : ∀ bs, stringLoop token (chr '\\' :: chr 'x' :: a :: b :: bs) cnt =
          stringLoop (token ++ [scanHexChar (a :: b :: bs)]) bs (cnt + 4) := by
        intro bs
        rw [stringLoop.eq_def]
        simp only [if_neg hquote, if_neg hxn, if_neg hxr, if_true]
      rw [hstep] at h
      obtain ⟨j, rfl, hk, hcnt⟩ := (stringLoop_sized _ _ _).behind h
      obtain ⟨hmem, hrest⟩ := ih hk (by simp only [List.length_cons] at hj; omega)
      refine ⟨by simp [hmem], fun rest => ?_⟩
      have hsame : scanHexChar (a :: b :: (buf.take j ++ rest)) = scanHexChar (a :: b :: buf) := by
        rw [scanHexChar_local hmem, ← scanHexChar_local hmem a b (buf.drop j), List.take_append_drop]
      rw [hcnt]
      simp only [List.take_succ_cons, List.cons_append]
      rw [hstep, hsame]
      exact hrest rest
  | case7 token cnt buf hshort _ hxn hxr =>
      have hover : stringLoop token (chr '\\' :: chr 'x' :: buf) cnt = .overrun := by
        rw [stringLoop.eq_def]
        simp only [if_neg hquote, if_neg hxn, if_neg hxr, if_true]
      rw [hover] at h
      cases h
  | case8 token cnt d buf hdn hdr hdx _ ih =>
      have hstep : ∀ bs, stringLoop token (chr '\\' :: d :: bs) cnt =
          stringLoop (token ++ [d]) bs (cnt + 2) := by
        intro bs
        rw [stringLoop.eq_def]
        simp only [if_neg hquote, if_neg hdn, if_neg hdr, if_neg hdx, if_true]
      rw [hstep] at h
      obtain ⟨j, rfl, hk, hcnt⟩ := (stringLoop_sized _ _ _).behind h
      obtain ⟨hmem, hrest⟩ := ih hk (by simp only [List.length_cons] at hj; omega)
      refine ⟨List.mem_cons_of_mem _ (List.mem_cons_of_mem _ hmem), fun rest => ?_⟩
      rw [hcnt, List.take_succ_cons, List.take_succ_cons, List.cons_append, List.cons_append, hstep]
      exact hrest rest
  | case9 token buf cnt hnq hnb =>
      unfold stringLoop at h
      rw [if_neg hnq, if_neg hnb, if_pos rfl] at h
      cases h
  | case10 token c buf cnt hcq hcb hcn ih =>
      have hstep : ∀ bs, stringLoop token (c :: bs) cnt =
          stringLoop (token ++ [c]) bs (cnt + 1) := by
        intro bs
        rw [stringLoop.eq_def]
        simp only [if_neg hcq, if_neg hcb, if_neg hcn]
      rw [hstep] at h
      obtain ⟨j, rfl, hk, hcnt⟩ := (stringLoop_sized _ _ _).behind h
      obtain ⟨hmem, hrest⟩ := ih hk (Nat.lt_of_succ_lt_succ hj)
      refine ⟨List.mem_cons_of_mem _ hmem, fun rest => ?_⟩
      rw [hcnt, List.take_succ_cons, List.cons_append, hstep]
      exact hrest rest

theorem constantLoop_local {buf : Bytes} {cnt j : ℕ}
    (h : constantLoop token buf cnt = .token x type (cnt + j)) (hj : j < buf.length) :
    0 < j ∧ ∀ rest, constantLoop token (buf.take j ++ rest) cnt = .token x type (cnt + j) := by
  have hquote : chr '\\' ≠ chr '\'' := by decide
  induction token, buf, cnt using constantLoop.induct generalizing j with
  | case1 token cnt => cases hj
  | case2 token buf cnt =>
      have hstep : ∀ bs, constantLoop token (chr '\'' :: bs) cnt =
          .token token .constant (cnt + 1) := by
        intro bs
        unfold constantLoop
        rw [if_pos rfl]
      rw [hstep] at h
      obtain rfl := Parsed.count_eq h
      refine ⟨Nat.one_pos, fun rest => ?_⟩
      rw [List.take_succ_cons, List.cons_append, hstep, h]
  | case3 token cnt _ =>
      unfold constantLoop at h
      rw [if_neg hquote, if_pos rfl] at h
      cases h
  | case4 token cnt d buf _ ih =>
      have hstep : ∀ bs, constantLoop token (chr '\\' :: d :: bs) cnt =
          constantLoop (token ++ [chr '\\', d]) bs (cnt + 2) := by
        intro bs
        rw [constantLoop.eq_def]
        simp only [if_neg hquote, if_true]
      rw [hstep] at h
      obtain ⟨j, rfl, hk, hcnt⟩ := (constantLoop_sized _ _ _).behind h
      obtain ⟨-, hrest⟩ := ih hk (by simp only [List.length_cons] at hj; omega)
      refine ⟨Nat.succ_pos _, fun rest => ?_⟩
      rw [hcnt, List.take_succ_cons, List.take_succ_cons, List.cons_append, List.cons_append, hstep]
      exact hrest rest
  | case5 token c buf cnt hcq hcb hnext =>
      rw [constantLoop.eq_def] at h
      simp only [if_neg hcq, if_neg hcb, if_pos hnext] at h
      cases h
  | case6 token c buf cnt hcq hcb hnext ih =>
      have hstep : ∀ bs, firstByte bs ≠ chr '\n' → constantLoop token (c :: bs) cnt =
          constantLoop (token ++ [c]) bs (cnt + 1) := by
        intro bs hbs
        rw [constantLoop.eq_def]
        simp only [if_neg hcq, if_neg hcb, if_neg hbs]
      rw [hstep buf hnext] at h
      obtain ⟨j, rfl, hk, hcnt⟩ := (constantLoop_sized _ _ _).behind h
      obtain ⟨hpos, hrest⟩ := ih hk (Nat.lt_of_succ_lt_succ hj)
      refine ⟨Nat.succ_pos _, fun rest => ?_⟩
      have hne : buf ≠ [] := by
        rintro rfl
        cases Nat.lt_of_succ_lt_succ hj
      rw [hcnt, List.take_succ_cons, List.cons_append,
        hstep _ (by rwa [firstByte_take hpos hne])]
      exact hrest rest

theorem commentLoop_local {buf : Bytes} {cnt j : ℕ}
    (h : commentLoop token buf cnt = .token x type (cnt + j)) :
    0 < j ∧ ∀ rest, commentLoop token (buf.take j ++ rest) cnt = .token x type (cnt + j) := by
  induction buf generalizing token cnt j with
  | nil => cases h
  | cons c buf ih =>
      rw [commentLoop] at h
      by_cases hopen : c = chr '/' ∧ firstByte buf = chr '*'
      · rw [if_pos hopen] at h
        cases h
      · rw [if_neg hopen] at h
        by_cases hclose : c = chr '*' ∧ firstByte buf = chr '/'
        · rw [if_pos hclose] at h
          obtain rfl := Parsed.count_eq h
          refine ⟨Nat.two_pos, fun rest => ?_⟩
          have hne : buf ≠ [] := by
            rintro rfl
            exact absurd hclose.2 (by decide)
          rw [List.take_succ_cons, List.cons_append, commentLoop, firstByte_take Nat.one_pos hne,
            if_neg hopen, if_pos hclose]
          exact h
        · rw [if_neg hclose] at h
          obtain ⟨j, rfl, hk, hcnt⟩ := (commentLoop_sized _ _ _).behind h
          obtain ⟨hpos, hrest⟩ := ih hk
          refine ⟨Nat.succ_pos _, fun rest => ?_⟩
          have hne : buf ≠ [] := by
            rintro rfl
            cases hk
          rw [hcnt, List.take_succ_cons, List.cons_append, commentLoop, firstByte_take hpos hne,
            if_neg hopen, if_neg hclose]
          exact hrest rest

/-- The newline behind a definition is looked at and not counted. -/
theorem defineLoop_local {buf : Bytes} {cnt j : ℕ}
    (h : defineLoop token buf cnt = .token x type (cnt + j)) :
    buf[j]? = some (chr '\n') ∧ ∀ rest,
      defineLoop token (buf.take j ++ chr '\n' :: rest) cnt = .token x type (cnt + j) := by
  have hnewline : chr '\\' ≠ chr '\n' := by decide
  induction token, buf, cnt using defineLoop.induct generalizing j with
  | case1 token cnt => cases h
  | case2 token buf cnt =>
      have hstep : ∀ bs, defineLoop token (chr '\n' :: bs) cnt = .token token .poundDefine cnt := by
        intro bs
        rw [defineLoop.eq_def]
        exact if_pos rfl
      rw [hstep] at h
      obtain rfl : j = 0 := Parsed.count_eq h
      exact ⟨rfl, fun rest => (hstep rest).trans h⟩
  | case3 token cnt _ =>
      rw [defineLoop.eq_def] at h
      simp only [if_neg hnewline, if_true] at h
      cases h
  | case4 token cnt d buf _ ih =>
      have hstep : ∀ bs, defineLoop token (chr '\\' :: d :: bs) cnt =
          defineLoop (token ++ [chr '\\', d]) bs (cnt + 2) := by
        intro bs
        rw [defineLoop.eq_def]
        simp only [if_neg hnewline, if_true]
      rw [hstep] at h
      obtain ⟨j, rfl, hk, hcnt⟩ := (defineLoop_sized _ _ _).behind h
      obtain ⟨hget, hrest⟩ := ih hk
      refine ⟨hget, fun rest => ?_⟩
      rw [hcnt, List.take_succ_cons, List.take_succ_cons, List.cons_append, List.cons_append, hstep]
      exact hrest rest
  | case5 token c buf cnt hcn hcb ih =>
      have hstep : ∀ bs, defineLoop token (c :: bs) cnt =
          defineLoop (token ++ [c]) bs (cnt + 1) := by
        intro bs
        rw [defineLoop.eq_def]
        simp only [if_neg hcn, if_neg hcb]
      rw [hstep] at h
      obtain ⟨j, rfl, hk, hcnt⟩ := (defineLoop_sized _ _ _).behind h
      obtain ⟨hget, hrest⟩ := ih hk
      refine ⟨hget, fun rest => ?_⟩
      rw [hcnt, List.take_succ_cons, List.cons_append, hstep]
      exact hrest rest

structure DirectiveParts (w₁ w₂ w₃ : Bytes) : Prop where
  name : ∀ c ∈ w₁, c ≠ chr ' '
  blank : ∀ c ∈ w₂, c = chr ' '
  blank_ne : w₂ ≠ []
  word : ∀ c ∈ w₃, c ≠ chr '\n'
  word_first : ∀ c w, w₃ = c :: w → c ≠ chr ' '

/-- The data of a directive are behind its name and at least one blank. -/
theorem directiveData_split (buf : Bytes) :
    ∃ w₁ w₂, buf = w₁ ++ (w₂ ++ directiveData buf) ∧ (∀ c ∈ w₁, c ≠ chr ' ') ∧
      (∀ c ∈ w₂, c = chr ' ') ∧ (directiveData buf ≠ [] → w₂ ≠ []) ∧
      ∀ c data, directiveData buf = c :: data → c ≠ chr ' ' := by
  obtain ⟨w₁, hbuf, hname, hr⟩ := exists_dropWhile (fun c => decide (c ≠ chr ' ')) buf
  have hdata : directiveData buf =
      (buf.dropWhile fun c => decide (c ≠ chr ' ')).dropWhile fun c => decide (c = chr ' ') := rfl
  rw [hdata]
  generalize buf.dropWhile (fun c => decide (c ≠ chr ' ')) = r at hbuf hr ⊢
  obtain ⟨w₂, hr', hblank, hdata'⟩ := exists_dropWhile (fun c => decide (c = chr ' ')) r
  generalize r.dropWhile (fun c => decide (c = chr ' ')) = data at hr' hdata' ⊢
  have hfirst : ∀ c rest, data = c :: rest → c ≠ chr ' ' := fun c rest hcons =>
    of_decide_eq_false (hdata' c rest hcons)
  refine ⟨w₁, w₂, by rw [← hr', ← hbuf], ?_, ?_, ?_, hfirst⟩
  · exact fun c hc => of_decide_eq_true (hname c hc)
  · exact fun c hc => of_decide_eq_true (hblank c hc)
  · rintro hne rfl
    obtain ⟨c, data, rfl⟩ := List.exists_cons_of_ne_nil hne
    exact hfirst c data rfl (not_not.1 (of_decide_eq_false (hr c data hr')))

theorem exists_directiveParts {buf : Bytes} (h : chr '\n' ∈ directiveData buf) :
    ∃ w₁ w₂ w₃ rest, buf = w₁ ++ (w₂ ++ (w₃ ++ chr '\n' :: rest)) ∧
      DirectiveParts w₁ w₂ w₃ := by
  obtain ⟨w₁, w₂, hbuf, hname, hblank, hne, hfirst⟩ := directiveData_split buf
  replace hne := hne (List.ne_nil_of_mem h)
  generalize directiveData buf = data at *
  obtain ⟨w₃, hdata, hword, hrest⟩ := exists_dropWhile (fun c => decide (c ≠ chr '\n')) data
  obtain ⟨c, rest, hcons⟩ := List.exists_cons_of_ne_nil
    (l := data.dropWhile fun c => decide (c ≠ chr '\n')) (by
      rw [Ne, List.dropWhile_eq_nil_iff]
      exact fun hall => absurd (hall _ h) (by decide))
  obtain rfl : c = chr '\n' := not_not.1 (of_decide_eq_false (hrest c rest hcons))
  rw [hcons] at hdata
  refine ⟨w₁, w₂, w₃, rest, by rw [← hdata, ← hbuf], hname, hblank, hne, ?_, ?_⟩
  · exact fun c hc => of_decide_eq_true (hword c hc)
  · rintro c w rfl
    exact hfirst c _ hdata

theorem directiveData_parts {w₁ w₂ w₃ : Bytes} (h : DirectiveParts w₁ w₂ w₃) (rest : Bytes) :
    directiveData (w₁ ++ (w₂ ++ (w₃ ++ chr '\n' :: rest))) = w₃ ++ chr '\n' :: rest := by
  have hname : ∀ c ∈ w₁, decide (c ≠ chr ' ') = true := fun c hc => decide_eq_true (h.name c hc)
  have hblank : ∀ c ∈ w₂, decide (c = chr ' ') = true := fun c hc => decide_eq_true (h.blank c hc)
  have hstart : (w₂ ++ (w₃ ++ chr '\n' :: rest)).dropWhile (fun c => decide (c ≠ chr ' ')) =
      w₂ ++ (w₃ ++ chr '\n' :: rest) := by
    obtain ⟨c, w, rfl⟩ := List.exists_cons_of_ne_nil h.blank_ne
    exact List.dropWhile_cons_of_neg (by simpa using h.blank c List.mem_cons_self)
  have hword : (w₃ ++ chr '\n' :: rest).dropWhile (fun c => decide (c = chr ' ')) =
      w₃ ++ chr '\n' :: rest := by
    cases w₃ with
    | nil => exact List.dropWhile_cons_of_neg (by decide)
    | cons c w => exact List.dropWhile_cons_of_neg (by simpa using h.word_first c w rfl)
  rw [directiveData, List.dropWhile_append_of_pos hname, hstart,
    List.dropWhile_append_of_pos hblank, hword]

theorem directiveWord_parts {w₁ w₂ w₃ : Bytes} (h : DirectiveParts w₁ w₂ w₃)
    (ignored : Bytes) (type : ParseType) (token rest : Bytes) (cnt : ℕ) :
    directiveWord ignored type token (w₁ ++ (w₂ ++ (w₃ ++ chr '\n' :: rest))) cnt =
      .token (token ++ (w₃.takeWhile fun c => decide (c ≠ chr '\n' ∧ c ≠ chr ' ')).filter
        fun c => decide (c ∉ ignored)) type (cnt + (w₁.length + w₂.length + w₃.length)) := by
  have hword : ∀ c ∈ w₃, decide (c ≠ chr '\n') = true := fun c hc => decide_eq_true (h.word c hc)
  have hdrop : (w₃ ++ chr '\n' :: rest).dropWhile (fun c => decide (c ≠ chr '\n')) =
      chr '\n' :: rest := by
    rw [List.dropWhile_append_of_pos hword]
    exact List.dropWhile_cons_of_neg (by decide)
  have htake : (w₃ ++ chr '\n' :: rest).takeWhile
        (fun c => decide (c ≠ chr '\n' ∧ c ≠ chr ' ')) =
      w₃.takeWhile fun c => decide (c ≠ chr '\n' ∧ c ≠ chr ' ') := by
    rw [List.takeWhile_append]
    split_ifs with hall
    · have hself := (List.takeWhile_prefix fun c => decide (c ≠ chr '\n' ∧ c ≠ chr ' ')).eq_of_length
        hall
      rw [List.takeWhile_cons_of_neg (by decide), List.append_nil, hself]
    · rfl
  have hcount : (w₁ ++ (w₂ ++ (w₃ ++ chr '\n' :: rest))).length - (chr '\n' :: rest).length =
      w₁.length + w₂.length + w₃.length := by
    simp only [List.length_append]
    omega
  rw [directiveWord, directiveData_parts h, if_pos (by simp), hdrop, htake, hcount]

theorem directiveWord_local {ignored buf : Bytes} {type' : ParseType} {cnt j : ℕ}
    (h : directiveWord ignored type' token buf cnt = .token x type (cnt + j)) :
    buf[j]? = some (chr '\n') ∧ ∀ rest,
      directiveWord ignored type' token (buf.take j ++ chr '\n' :: rest) cnt =
        .token x type (cnt + j) := by
  have hline : chr '\n' ∈ directiveData buf := by
    by_contra hnot
    rw [directiveWord, if_neg hnot] at h
    cases h
  obtain ⟨w₁, w₂, w₃, rest', rfl, hparts⟩ := exists_directiveParts hline
  rw [directiveWord_parts hparts] at h
  obtain rfl := Parsed.count_eq h
  have hsplit : w₁ ++ (w₂ ++ (w₃ ++ chr '\n' :: rest')) =
      w₁ ++ w₂ ++ w₃ ++ chr '\n' :: rest' := by simp
  have hlen : (w₁ ++ w₂ ++ w₃).length = w₁.length + w₂.length + w₃.length := by
    rw [List.length_append, List.length_append]
  rw [hsplit, ← hlen, List.take_left, List.getElem?_append_right (le_refl _), Nat.sub_self]
  refine ⟨rfl, fun rest => ?_⟩
  rw [hlen, ← h, ← directiveWord_parts hparts ignored type' token rest]
  simp

/-- The data of a directive, and what comes in front of them. -/
theorem exists_directiveData {buf : Bytes} (h : directiveData buf ≠ []) :
    ∃ w c data, buf = w ++ c :: data ∧ directiveData buf = c :: data ∧ c ≠ chr ' ' ∧
      ∀ d r, d ≠ chr ' ' → directiveData (w ++ d :: r) = d :: r := by
  obtain ⟨w₁, w₂, hbuf, hname, hblank, hne, hfirst⟩ := directiveData_split buf
  replace hne := hne h
  generalize directiveData buf = data at *
  obtain ⟨c, data, rfl⟩ := List.exists_cons_of_ne_nil h
  refine ⟨w₁ ++ w₂, c, data, by rw [List.append_assoc, ← hbuf], rfl, hfirst c data rfl, ?_⟩
  intro d r hd
  have hstart : (w₂ ++ d :: r).dropWhile (fun c => decide (c ≠ chr ' ')) = w₂ ++ d :: r := by
    obtain ⟨b, w, rfl⟩ := List.exists_cons_of_ne_nil hne
    exact List.dropWhile_cons_of_neg (by simpa using hblank b List.mem_cons_self)
  rw [List.append_assoc, directiveData,
    List.dropWhile_append_of_pos fun b hb => decide_eq_true (hname b hb), hstart,
    List.dropWhile_append_of_pos fun b hb => decide_eq_true (hblank b hb)]
  exact List.dropWhile_cons_of_neg (by simpa using hd)

def definition (token buf : Bytes) (cnt : ℕ) : Parsed :=
  defineLoop token (directiveData buf) (cnt + (buf.length - (directiveData buf).length))

theorem definition_local {buf : Bytes} {cnt j : ℕ}
    (h : definition token buf cnt = .token x type (cnt + j)) :
    buf[j]? = some (chr '\n') ∧ ∀ rest,
      definition token (buf.take j ++ chr '\n' :: rest) cnt = .token x type (cnt + j) := by
  have hne : directiveData buf ≠ [] := by
    intro hnil
    rw [definition, hnil] at h
    cases h
  obtain ⟨w, c, data, hbuf, hdata, hc, hsame⟩ := exists_directiveData hne
  have hcount : ∀ d r, d ≠ chr ' ' →
      definition token (w ++ d :: r) cnt = defineLoop token (d :: r) (cnt + w.length) := by
    intro d r hd
    have hlen : (w ++ d :: r).length - (d :: r).length = w.length := by
      rw [List.length_append, Nat.add_sub_cancel]
    rw [definition, hsame d r hd, hlen]
  rw [hbuf, hcount c data hc] at h
  obtain ⟨k, rfl, hk, hcnt⟩ := (defineLoop_sized _ _ _).behind h
  obtain ⟨hget, hrest⟩ := defineLoop_local hk
  rw [hbuf, Nat.add_comm k, List.getElem?_append_right (Nat.le_add_right _ _),
    Nat.add_sub_cancel_left, List.take_length_add_append]
  refine ⟨hget, fun rest => ?_⟩
  rw [Nat.add_comm w.length, hcnt, ← hrest rest, List.append_assoc]
  cases k with
  | zero => exact hcount (chr '\n') rest (by decide)
  | succ k => exact hcount c _ hc

/-! ## The branch that is taken -/

def poundWords : List Bytes :=
  [cstr "#include ", cstr "#define ", cstr "#ifdef ", cstr "#else\n", cstr "#else ",
    cstr "#endif\n", cstr "#endif "]

section

variable {ppFlag : Bool} {buf buf' : Bytes}

/-- A branch depends on what is ahead by the words of directives and by the next character. -/
theorem parseBranch_congr {c : UInt8}
    (hpound : ppFlag = true → ∀ w ∈ poundWords, w.isPrefixOf (c :: buf) = w.isPrefixOf (c :: buf'))
    (hnext : c = chr '/' →
      ((firstByte buf = chr '/') = (firstByte buf' = chr '/')) ∧
        ((firstByte buf = chr '*') = (firstByte buf' = chr '*'))) :
    parseBranch [] true ppFlag c buf = parseBranch [] true ppFlag c buf' := by
  have hwords : ∀ w ∈ poundWords,
      (ppFlag && w.isPrefixOf (c :: buf)) = (ppFlag && w.isPrefixOf (c :: buf')) := by
    intro w hw
    cases ppFlag with
    | false => rfl
    | true => rw [hpound rfl w hw]
  simp only [poundWords, List.forall_mem_cons, List.not_mem_nil, false_imp_iff, implies_true,
    and_true] at hwords
  obtain ⟨h1, h2, h3, h4, h5, h6, h7⟩ := hwords
  have hslash : (c = chr '/' ∧ firstByte buf = chr '/') = (c = chr '/' ∧ firstByte buf' = chr '/') :=
    propext (and_congr_right fun hc => by rw [(hnext hc).1])
  have hstar : (c = chr '/' ∧ firstByte buf = chr '*') = (c = chr '/' ∧ firstByte buf' = chr '*') :=
    propext (and_congr_right fun hc => by rw [(hnext hc).2])
  simp only [parseBranch, h1, h2, h3, h4, h5, h6, h7, and_true, hslash, hstar]

end

end

end ScOpen
