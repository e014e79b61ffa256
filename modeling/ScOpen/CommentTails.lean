import ScOpen.ParseRuns

/-!
# A token in front of a comment

The first part of a text is followed by a comment, with a blank in front of it or not. A token of
the first part is the same, unless it ends where the part does and could go on, or is a directive,
or makes another comment together with what follows.
-/

namespace ScOpen

def CommentAt (ppFlag : Bool) : Bytes → Prop
  | [] => False
  | c :: buf => parseBranch [] true ppFlag c buf = .lineComment ∨
      parseBranch [] true ppFlag c buf = .comment

def ParseBranch.Starts (c : UInt8) : ParseBranch → Prop
  | .lineComment | .comment => c = chr '#' ∨ c = chr '/'
  | .backslash => c = chr '\\'
  | _ => True

section

variable {ppFlag : Bool} {K : Bytes}

theorem parseBranch_starts (c : UInt8) (buf : Bytes) :
    (parseBranch [] true ppFlag c buf).Starts c := by
  unfold parseBranch
  refine iteInduction (fun _ => trivial) fun _ => ?_
  refine iteInduction (fun _ => trivial) fun _ => ?_
  refine iteInduction (fun _ => trivial) fun _ => ?_
  refine iteInduction (fun _ => trivial) fun _ => ?_
  refine iteInduction (fun _ => trivial) fun _ => ?_
  refine iteInduction (fun _ => trivial) fun _ => ?_
  refine iteInduction (fun _ => trivial) fun _ => ?_
  refine iteInduction (fun _ => trivial) fun _ => ?_
  refine iteInduction (fun _ => trivial) fun _ => ?_
  refine iteInduction (fun _ => trivial) fun _ => ?_
  refine iteInduction (fun h => .inl h.1) fun _ => ?_
  refine iteInduction (fun h => .inr h.1) fun _ => ?_
  refine iteInduction (fun h => .inr h.1) fun _ => ?_
  refine iteInduction (fun _ => trivial) fun _ => ?_
  refine iteInduction (fun _ => trivial) fun _ => ?_
  refine iteInduction (fun h => h) fun _ => ?_
  exact iteInduction (fun _ => trivial) fun _ => trivial

theorem CommentAt.first (h : CommentAt ppFlag K) :
    firstByte K = chr '#' ∨ firstByte K = chr '/' := by
  cases K with
  | nil => exact h.elim
  | cons c buf =>
      have hstarts := @parseBranch_starts ppFlag c buf
      rcases h with h | h
      · rw [h] at hstarts
        exact hstarts
      · rw [h] at hstarts
        exact hstarts

theorem cut_of_first (h : firstByte K = chr '#' ∨ firstByte K = chr '/') : Cut K := by
  rw [Cut]
  rcases h with h | h
  · rw [h]
    decide
  · rw [h]
    decide

theorem cut_blank : Cut (chr ' ' :: K) := by
  have hblank : firstByte (chr ' ' :: K) = chr ' ' := rfl
  rw [Cut, hblank]
  decide

/-! ## Directives -/

def directives : List Bytes :=
  [cstr "#include", cstr "#define", cstr "#ifdef", cstr "#else", cstr "#endif"]

theorem prefix_of_length_le {word v tail : Bytes} (h : word <+: v ++ tail)
    (hle : word.length ≤ v.length) : word <+: v :=
  List.prefix_of_prefix_length_le h (List.prefix_append v tail) hle

theorem prefix_beyond {word v tail : Bytes} (h : word <+: v ++ tail)
    (hlt : v.length < word.length) :
    word.take v.length = v ∧ word[v.length]? = tail.head? := by
  obtain ⟨r, hr⟩ := h
  constructor
  · have htake := congrArg (List.take v.length) hr
    rwa [List.take_left, List.take_append_of_le_length hlt.le] at htake
  · have hget := congrArg (·[v.length]?) hr
    simp only [List.getElem?_append_left hlt, List.getElem?_append_right (le_refl v.length),
      Nat.sub_self, ← List.head?_eq_getElem?] at hget
    exact hget

/-- The words of directives are ahead with the blank as without it. -/
theorem poundWords_before {v : Bytes} (hfirst : firstByte K = chr '#' ∨ firstByte K = chr '/')
    (hv : v ≠ []) (hdirective : v ∉ directives) {word : Bytes} (hword : word ∈ poundWords) :
    word.isPrefixOf (v ++ chr ' ' :: K) = word.isPrefixOf (v ++ K) := by
  have hblank : ∀ word ∈ poundWords, ∀ n < word.length, word[n]? = some (chr ' ') →
      word.take n ∈ directives := by decide
  have hinner : ∀ word ∈ poundWords, ∀ n < word.length, 0 < n →
      word[n]? ≠ some (chr '#') ∧ word[n]? ≠ some (chr '/') := by decide
  rw [Bool.eq_iff_iff, List.isPrefixOf_iff_prefix, List.isPrefixOf_iff_prefix]
  constructor
  · intro h
    rcases Nat.lt_or_ge v.length word.length with hlt | hle
    · obtain ⟨htake, hget⟩ := prefix_beyond h hlt
      have hmem := hblank word hword v.length hlt hget
      rw [htake] at hmem
      exact absurd hmem hdirective
    · exact (prefix_of_length_le h hle).trans (List.prefix_append v K)
  · intro h
    rcases Nat.lt_or_ge v.length word.length with hlt | hle
    · obtain ⟨-, hget⟩ := prefix_beyond h hlt
      obtain ⟨hpound, hslash⟩ := hinner word hword v.length hlt (List.length_pos_iff.2 hv)
      cases K with
      | nil => exact absurd hfirst (by decide)
      | cons c K =>
          rw [hget] at hpound hslash
          rcases hfirst with hc | hc
          · exact absurd (congrArg some hc) hpound
          · exact absurd (congrArg some hc) hslash
    · exact (prefix_of_length_le h hle).trans (List.prefix_append v _)

theorem parseBranch_before {c : UInt8} {w : Bytes}
    (hfirst : firstByte K = chr '#' ∨ firstByte K = chr '/')
    (hslash : ¬(c :: w = [chr '/'] ∧ firstByte K = chr '/'))
    (hdirective : ppFlag = true → c :: w ∉ directives) :
    parseBranch [] true ppFlag c (w ++ chr ' ' :: K) = parseBranch [] true ppFlag c (w ++ K) := by
  apply parseBranch_congr
  · intro hpp word hword
    exact poundWords_before hfirst (List.cons_ne_nil c w) (hdirective hpp) hword
  · rintro rfl
    cases w with
    | cons d w => exact ⟨rfl, rfl⟩
    | nil =>
        have hK : firstByte K ≠ chr '/' := fun h => hslash ⟨rfl, h⟩
        have hpound := hfirst.resolve_right hK
        have hblank : firstByte (chr ' ' :: K) = chr ' ' := rfl
        rw [List.nil_append, List.nil_append, hblank, hpound]
        decide

/-! ## The end of a token -/

inductive Exposed (ppFlag : Bool) (K : Bytes) (s : ParseState) : Prop
  | word (hbuf : s.buf = []) (htoken : s.token ≠ [])
  | slash (hbuf : s.buf = [chr '/']) (hK : firstByte K = chr '/')
  | directive (hpp : ppFlag = true) (hbuf : s.buf = cstr "#else" ∨ s.buf = cstr "#endif")
  | escape (d : UInt8) (htoken : s.token = []) (hd : isHexDigit d = true)
      (hbuf : s.buf = [chr '\\', chr 'x', d])

variable {token x : Bytes} {type : ParseType} {c : UInt8} {w : Bytes} {cnt n : ℕ}

theorem Parsed.Sized.exists_add {r : Parsed} {low size : ℕ} (h : r.Sized low size)
    (hr : r = .token x type n) : ∃ j, n = low + j := by
  subst hr
  exact Nat.exists_eq_add_of_le h.1

theorem take_append_rest {v tail tail' : Bytes} {j : ℕ} (hj : j ≤ v.length) :
    (v ++ tail).take j ++ (v.drop j ++ tail') = v ++ tail' := by
  rw [List.take_append_of_le_length hj, ← List.append_assoc, List.take_append_drop]

/-- A result that depends on the characters that have been counted only. -/
theorem same_of_local {f : Bytes → Parsed} {r : Parsed} {j : ℕ} {tail tail' : Bytes}
    (hlocal : ∀ rest, f ((w ++ tail).take j ++ rest) = r) (hj : j ≤ w.length) :
    f (w ++ tail') = r := by
  rw [← hlocal (w.drop j ++ tail'), take_append_rest hj]

/-- A line end at which a directive ends is in the first part. -/
theorem lt_of_newline {v : Bytes} {j : ℕ} (h : (v ++ chr ' ' :: K)[j]? = some (chr '\n'))
    (hj : j ≤ v.length) : j < v.length ∧ v[j]? = some (chr '\n') := by
  rcases hj.lt_or_eq with hlt | rfl
  · rw [List.getElem?_append_left hlt] at h
    exact ⟨hlt, h⟩
  · rw [List.getElem?_append_right (le_refl _), Nat.sub_self] at h
    exact absurd (Option.some.inj h) (by decide)

theorem same_of_local_line {f : Bytes → Parsed} {r : Parsed} {v : Bytes} {j : ℕ}
    (hget : (v ++ chr ' ' :: K)[j]? = some (chr '\n'))
    (hlocal : ∀ rest, f ((v ++ chr ' ' :: K).take j ++ chr '\n' :: rest) = r)
    (hj : j ≤ v.length) : f (v ++ K) = r := by
  obtain ⟨hlt, hget'⟩ := lt_of_newline hget hj
  have hdrop : v.drop j = chr '\n' :: v.drop (j + 1) := by
    rw [List.drop_eq_getElem_cons hlt]
    congr 1
    exact Option.some.inj ((List.getElem?_eq_getElem hlt).symm.trans hget')
  rw [← hlocal (v.drop (j + 1) ++ K), ← List.cons_append, ← hdrop, take_append_rest hj]

theorem parseBackslash_before (hfirst : firstByte K = chr '#' ∨ firstByte K = chr '/')
    (hescape : ∀ d, isHexDigit d = true → w ≠ [chr 'x', d]) :
    parseBackslash token cnt (w ++ chr ' ' :: K) = parseBackslash token cnt (w ++ K) := by
  obtain ⟨k, K, rfl⟩ : ∃ k K', K = k :: K' := by
    cases K with
    | nil => exact absurd hfirst (by decide)
    | cons k K => exact ⟨k, K, rfl⟩
  have hother : ∀ d, d = chr ' ' ∨ d = chr '#' ∨ d = chr '/' →
      ¬(d = chr 'n' ∨ d = chr 'r') ∧ d ≠ chr 'x' ∧ isHexDigit d = false := by
    rintro d (rfl | rfl | rfl) <;> decide
  obtain ⟨hblank, hblankx, hblankhex⟩ := hother _ (.inl rfl)
  obtain ⟨hk, hkx, hkhex⟩ := hother k (.inr hfirst)
  match w with
  | [] =>
      rw [List.nil_append, List.nil_append, parseBackslash, parseBackslash, if_neg hblank,
        if_neg hblankx, if_neg hk, if_neg hkx]
  | [d] =>
      simp only [List.singleton_append, parseBackslash, firstByte, List.headD_cons, hblankhex,
        hkhex, Bool.false_eq_true, if_false]
  | [d, e] =>
      simp only [List.cons_append, List.nil_append, parseBackslash, firstByte, List.headD_cons]
      by_cases hd : d = chr 'x'
      · subst hd
        have he : isHexDigit e = false := Bool.eq_false_iff.2 fun he => hescape e he rfl
        simp only [he, Bool.false_eq_true, if_false]
      · simp only [if_neg hd]
  | d :: e :: f :: w => rfl

theorem firstByte_before (hfirst : firstByte K = chr '#' ∨ firstByte K = chr '/') {d : UInt8}
    (hd : d ≠ chr ' ' ∧ d ≠ chr '#' ∧ d ≠ chr '/') :
    (firstByte (w ++ chr ' ' :: K) = d) = (firstByte (w ++ K) = d) := by
  cases w with
  | cons e w => rfl
  | nil =>
      have hblank : firstByte (chr ' ' :: K) ≠ d := hd.1.symm
      have hK : firstByte K ≠ d := by
        rcases hfirst with h | h
        · rw [h]
          exact hd.2.1.symm
        · rw [h]
          exact hd.2.2.symm
      rw [List.nil_append, List.nil_append, eq_false hblank, eq_false hK]

theorem definition_sized (token buf : Bytes) (cnt : ℕ) :
    (definition token buf cnt).Sized cnt (token.length + (directiveData buf).length) :=
  (defineLoop_sized token (directiveData buf) _).mono (Nat.le_add_right _ _) (le_refl _)

/-- A directive with data goes on to the end of a line. -/
theorem no_directive_before (hexposed : ¬Exposed ppFlag K ⟨token, type, c :: w, cnt⟩)
    {type' : ParseType}
    (h : parseEnd [] true ppFlag ⟨token, type, c :: (w ++ chr ' ' :: K), cnt⟩ = .token x type' n)
    (hn : n ≤ cnt + (w.length + 1)) (hpp : ppFlag = true) : c :: w ∉ directives := by
  intro hmem
  have hnewline : ∀ v ∈ directives, chr '\n' ∉ v := by decide
  have hpast : ∀ {j}, n = cnt + j → (c :: w ++ chr ' ' :: K)[j]? = some (chr '\n') → False := by
    rintro j rfl hget
    obtain ⟨-, hget'⟩ := lt_of_newline hget (Nat.le_of_add_le_add_left hn)
    exact hnewline _ hmem (List.mem_of_getElem? hget')
  subst hpp
  have hcases := hmem
  simp only [directives, List.mem_cons, List.not_mem_nil, or_false] at hcases
  rcases hcases with hv | hv | hv | hv | hv
  · obtain ⟨rfl, rfl⟩ := List.cons.inj hv
    have hword : directiveWord (cstr "<>\"") .poundInclude token
      (chr '#' :: (cstr "include" ++ chr ' ' :: K)) cnt = .token x type' n := h
    obtain ⟨j, hj⟩ := ((directiveWord_sized _ _ _ _ _).mono (Nat.le_add_right _ _)
      (le_refl _)).exists_add hword
    exact hpast hj (directiveWord_local (hj ▸ hword)).1
  · obtain ⟨rfl, rfl⟩ := List.cons.inj hv
    have hword : definition token (chr '#' :: (cstr "define" ++ chr ' ' :: K)) cnt =
      .token x type' n := h
    obtain ⟨j, hj⟩ := (definition_sized _ _ _).exists_add hword
    exact hpast hj (definition_local (hj ▸ hword)).1
  · obtain ⟨rfl, rfl⟩ := List.cons.inj hv
    have hword : directiveWord [] .poundIfdef token
      (chr '#' :: (cstr "ifdef" ++ chr ' ' :: K)) cnt = .token x type' n := h
    obtain ⟨j, hj⟩ := ((directiveWord_sized _ _ _ _ _).mono (Nat.le_add_right _ _)
      (le_refl _)).exists_add hword
    exact hpast hj (directiveWord_local (hj ▸ hword)).1
  · exact hexposed (.directive rfl (.inl hv))
  · exact hexposed (.directive rfl (.inr hv))

/-- A token that has ended where it is not exposed is the same in front of the comment. -/
theorem parseEnd_before (hfirst : firstByte K = chr '#' ∨ firstByte K = chr '/')
    (hexposed : ¬Exposed ppFlag K ⟨token, type, c :: w, cnt⟩) {type' : ParseType}
    (h : parseEnd [] true ppFlag ⟨token, type, c :: (w ++ chr ' ' :: K), cnt⟩ = .token x type' n)
    (hn : n ≤ cnt + (w.length + 1)) :
    parseEnd [] true ppFlag ⟨token, type, c :: (w ++ K), cnt⟩ = .token x type' n := by
  have hslash : ¬(c :: w = [chr '/'] ∧ firstByte K = chr '/') := fun hs => hexposed (.slash hs.1 hs.2)
  have hbranch := parseBranch_before hfirst hslash (no_directive_before hexposed h hn)
  have hequals : (firstByte (w ++ chr ' ' :: K) = chr '=') = (firstByte (w ++ K) = chr '=') :=
    firstByte_before hfirst (by decide)
  have hnewline : (firstByte (w ++ chr ' ' :: K) = chr '\n') = (firstByte (w ++ K) = chr '\n') :=
    firstByte_before hfirst (by decide)
  have hsees := @parseBranch_sees [] true ppFlag c (w ++ chr ' ' :: K)
  unfold parseEnd at h ⊢
  dsimp only at h ⊢
  rw [← hbranch]
  cases hthis : parseBranch [] true ppFlag c (w ++ chr ' ' :: K) with
  | string =>
      simp only [hthis] at h ⊢
      obtain ⟨j, rfl⟩ := (stringLoop_sized _ _ _).exists_add h
      have hj : j ≤ w.length := by omega
      exact same_of_local (f := fun bs => stringLoop token bs (cnt + 1))
        (stringLoop_local h (by simp; omega)).2 hj
  | constant =>
      simp only [hthis] at h ⊢
      obtain ⟨j, rfl⟩ := (constantLoop_sized _ _ _).exists_add h
      have hj : j ≤ w.length := by omega
      exact same_of_local (f := fun bs => constantLoop token bs (cnt + 1))
        (constantLoop_local h (by simp; omega)).2 hj
  | poundInclude =>
      simp only [hthis] at h ⊢
      obtain ⟨j, rfl⟩ := ((directiveWord_sized _ _ _ _ _).mono (Nat.le_add_right _ _)
        (le_refl _)).exists_add h
      obtain ⟨hget, hlocal⟩ := directiveWord_local h
      exact same_of_local_line
        (f := fun bs => directiveWord (cstr "<>\"") .poundInclude token bs cnt) (v := c :: w)
        hget hlocal (Nat.le_of_add_le_add_left hn)
  | poundDefine =>
      simp only [hthis] at h ⊢
      have hdefinition : definition token (c :: (w ++ chr ' ' :: K)) cnt = .token x type' n := h
      obtain ⟨j, rfl⟩ := (definition_sized _ _ _).exists_add hdefinition
      obtain ⟨hget, hlocal⟩ := definition_local hdefinition
      exact same_of_local_line (f := fun bs => definition token bs cnt) (v := c :: w)
        hget hlocal (Nat.le_of_add_le_add_left hn)
  | poundIfdef =>
      simp only [hthis] at h ⊢
      obtain ⟨j, rfl⟩ := ((directiveWord_sized _ _ _ _ _).mono (Nat.le_add_right _ _)
        (le_refl _)).exists_add h
      obtain ⟨hget, hlocal⟩ := directiveWord_local h
      exact same_of_local_line (f := fun bs => directiveWord [] .poundIfdef token bs cnt)
        (v := c :: w) hget hlocal (Nat.le_of_add_le_add_left hn)
  | lineComment =>
      simp only [hthis] at h ⊢
      obtain ⟨j, rfl⟩ := (skipLine_sized _ _ _).exists_add h
      have hj : j ≤ w.length := by omega
      exact same_of_local (f := fun bs => skipLine token bs (cnt + 1))
        (skipLine_local h (by simp; omega)) hj
  | comment =>
      simp only [hthis] at h ⊢
      rw [hthis] at hsees
      obtain ⟨d, w, rfl⟩ : ∃ d w', w = d :: w' := by
        cases w with
        | nil => exact absurd (show chr ' ' = chr '*' from hsees) (by decide)
        | cons d w => exact ⟨d, w, rfl⟩
      simp only [List.cons_append, List.tail_cons, List.length_cons] at h hn ⊢
      obtain ⟨j, rfl⟩ := (commentLoop_sized _ _ _).exists_add h
      have hj : j ≤ w.length := by omega
      exact same_of_local (f := fun bs => commentLoop (token ++ [chr '/', chr '*']) bs (cnt + 2))
        (commentLoop_local h).2 hj
  | comparison =>
      simp only [hthis, hequals] at h ⊢
      exact h
  | backslash =>
      simp only [hthis] at h ⊢
      by_cases htoken : token = []
      · rw [if_neg (not_not.2 htoken)] at h ⊢
        have hc : c = chr '\\' := by
          have hstarts := @parseBranch_starts ppFlag c (w ++ chr ' ' :: K)
          rw [hthis] at hstarts
          exact hstarts
        rw [← parseBackslash_before hfirst fun d hd hw => hexposed (.escape d htoken hd
          (by rw [hc, hw]))]
        exact h
      · rw [if_pos htoken] at h ⊢
        exact h
  | endOfLine =>
      simp only [hthis, hnewline] at h ⊢
      exact h
  | _ =>
      simp only [hthis] at h ⊢
      exact h

/-! ## A token -/

def stopAt (ppFlag : Bool) (v : Bytes) : ParseState := runTo ppFlag ⟨[], .null, v, 0⟩

theorem parse_append {tail : Bytes} (h : Cut tail) (v : Bytes) :
    parse (v ++ tail) [] true ppFlag =
      parseEnd [] true ppFlag (runTo ppFlag ((stopAt ppFlag v).before tail)) := by
  rw [parse_eq_runTo, stopAt, ← runTo_before h]
  rfl

theorem parse_append_stop {tail v : Bytes} (h : Cut tail)
    (hstop : stopAt ppFlag v = ⟨token, type, c :: w, cnt⟩) :
    parse (v ++ tail) [] true ppFlag =
      parseEnd [] true ppFlag ⟨token, type, c :: (w ++ tail), cnt⟩ := by
  obtain ⟨p, q, htakes⟩ := @exists_loopTakes ppFlag ⟨[], .null, v, 0⟩
  have hstops := htakes.stops
  change ∀ c w, (stopAt ppFlag v).buf = c :: w → _ ∧ (_ → (stopAt ppFlag v).token ≠ []) at hstops
  rw [hstop] at hstops
  obtain ⟨hname, hpassed⟩ := hstops c w rfl
  rw [parse_append h, hstop]
  exact congrArg (parseEnd [] true ppFlag) (runTo_stop hname hpassed)

theorem runTo_comment (hK : CommentAt ppFlag K) (token : Bytes) (type : ParseType) (cnt : ℕ) :
    runTo ppFlag ⟨token, type, K, cnt⟩ = ⟨token, type, K, cnt⟩ := by
  have hfirst := hK.first
  cases K with
  | nil => exact hK.elim
  | cons c K =>
      apply runTo_stop (cut_of_first hfirst).1
      have hother : ¬IsPassed c := by
        rcases hfirst with hc | hc
        · rw [show c = chr '#' from hc]
          decide
        · rw [show c = chr '/' from hc]
          decide
      exact fun hpassed => absurd hpassed hother

/-- What is left of a token at a comment. -/
theorem parseEnd_comment (hK : CommentAt ppFlag K) :
    (∀ token type cnt, parseEnd [] true ppFlag ⟨token, type, K, cnt⟩ =
        skipLine token K.tail (cnt + 1)) ∨
      ∀ token type cnt, parseEnd [] true ppFlag ⟨token, type, K, cnt⟩ =
        commentLoop (token ++ [chr '/', chr '*']) K.tail.tail (cnt + 2) := by
  cases K with
  | nil => exact hK.elim
  | cons c K =>
      rcases hK with hbranch | hbranch
      · refine .inl fun token type cnt => ?_
        unfold parseEnd
        simp only [hbranch, List.tail_cons]
      · refine .inr fun token type cnt => ?_
        unfold parseEnd
        simp only [hbranch, List.tail_cons]

theorem parse_append_comment {v : Bytes} (hK : CommentAt ppFlag K)
    (hstop : stopAt ppFlag v = ⟨token, type, [], cnt⟩) :
    parse (v ++ K) [] true ppFlag = parseEnd [] true ppFlag ⟨token, type, K, cnt⟩ := by
  rw [parse_append (cut_of_first hK.first), hstop]
  exact congrArg (parseEnd [] true ppFlag) (runTo_comment hK token type cnt)

theorem isPassed_blank : IsPassed (chr ' ') := by decide

theorem parse_append_blank {v : Bytes} (hK : CommentAt ppFlag K)
    (hstop : stopAt ppFlag v = ⟨[], type, [], cnt⟩) :
    parse (v ++ chr ' ' :: K) [] true ppFlag =
      parseEnd [] true ppFlag ⟨[], type, K, cnt + 1⟩ := by
  rw [parse_append cut_blank, hstop]
  refine congrArg (parseEnd [] true ppFlag) ?_
  rw [← runTo_comment hK [] type (cnt + 1)]
  exact runTo_passed isPassed_blank

theorem parse_append_word {v : Bytes} (htoken : token ≠ [])
    (hstop : stopAt ppFlag v = ⟨token, type, [], cnt⟩) :
    parse (v ++ chr ' ' :: K) [] true ppFlag = .token token type cnt := by
  rw [parse_append cut_blank, hstop]
  have hrun : runTo ppFlag ((ParseState.mk token type [] cnt).before (chr ' ' :: K)) =
      ⟨token, type, chr ' ' :: K, cnt⟩ := runTo_stop (by decide) fun _ => htoken
  rw [hrun]
  unfold parseEnd
  simp only [parseBranch_of_isPassed isPassed_blank]

/-- How far the loop has come. -/
theorem stopAt_cnt (ppFlag : Bool) (v : Bytes) :
    (stopAt ppFlag v).cnt + (stopAt ppFlag v).buf.length = v.length := by
  obtain ⟨p, q, htakes⟩ := @exists_loopTakes ppFlag ⟨[], .null, v, 0⟩
  have hlength := congrArg List.length htakes.buf_eq
  have hcnt := htakes.cnt_eq
  simp only [List.length_append] at hlength
  dsimp only at hcnt
  rw [stopAt]
  omega

/-- A token that ends in the first part, where it is not exposed, is the same in front of the
comment. -/
theorem parse_before {v : Bytes} (hK : CommentAt ppFlag K)
    (hexposed : ¬Exposed ppFlag K (stopAt ppFlag v)) {type' : ParseType}
    (h : parse (v ++ chr ' ' :: K) [] true ppFlag = .token x type' n) (hn : n ≤ v.length) :
    parse (v ++ K) [] true ppFlag = .token x type' n := by
  have hcnt := stopAt_cnt ppFlag v
  rcases hstop : stopAt ppFlag v with ⟨token, type, buf, cnt⟩
  rw [hstop] at hexposed hcnt
  cases buf with
  | nil =>
      have htoken : token = [] := by
        by_contra htoken
        exact hexposed (.word rfl htoken)
      subst htoken
      rw [parse_append_blank hK hstop] at h
      have hpast : cnt + 2 ≤ n := by
        rcases parseEnd_comment hK with hend | hend
        · rw [hend] at h
          have hsized := skipLine_sized [] K.tail (cnt + 1 + 1)
          rw [h] at hsized
          exact hsized.1
        · rw [hend] at h
          have hsized := commentLoop_sized ([] ++ [chr '/', chr '*']) K.tail.tail (cnt + 1 + 2)
          rw [h] at hsized
          exact (Nat.le_succ _).trans hsized.1
      simp only [List.length_nil] at hcnt
      omega
  | cons c w =>
      rw [parse_append_stop cut_blank hstop] at h
      rw [parse_append_stop (cut_of_first hK.first) hstop]
      exact parseEnd_before hK.first hexposed h (hn.trans hcnt.ge)

end

end ScOpen
