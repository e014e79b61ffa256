import ScOpen.ParseLocality

/-!
# The loop of the lexer on a text with a tail

The loop passes over blanks, then takes numbers and names. It does so in the first part of a text
in the same way whatever is behind it, as long as a number or a name cannot go on there.
-/

namespace ScOpen

/-! ## The characters that the loop takes -/

def IsPassed (c : UInt8) : Prop :=
  isNameChar c = false ∧ c ≠ chr '"' ∧ c ≠ chr '\'' ∧ c ≠ chr '#' ∧ c ∉ cstr "<>=!" ∧
    c ∉ cstr "(),$-+/*&|^:.~" ∧ c ≠ chr '\\' ∧ c ∉ cstr "\n\r;"

instance (c : UInt8) : Decidable (IsPassed c) := inferInstanceAs (Decidable (_ ∧ _))

def ParseBranch.Stops : ParseBranch → Prop
  | .number | .name | .noParse | .other => False
  | _ => True

theorem isNameChar_of_isDigit {c : UInt8} (h : IsDigit c) : isNameChar c = true := by
  simp [isNameChar, isAlnum, h]

section

variable {ppFlag : Bool} {c : UInt8} {buf : Bytes}

theorem parseBranch_of_isDigit (h : IsDigit c) : parseBranch [] true ppFlag c buf = .number :=
  if_pos h

theorem parseBranch_of_isNameChar (hdigit : ¬IsDigit c) (h : isNameChar c = true) :
    parseBranch [] true ppFlag c buf = .name := by
  rw [parseBranch, if_neg hdigit, if_pos h]

theorem parseBranch_of_isPassed (h : IsPassed c) : parseBranch [] true ppFlag c buf = .other := by
  obtain ⟨hname, hquote, hconstant, hpound, hcomparison, hpunctuation, hbackslash, hend⟩ := h
  have hdigit : ¬IsDigit c := fun hdigit => by
    rw [isNameChar_of_isDigit hdigit] at hname
    cases hname
  have hslash : c ≠ chr '/' := by
    rintro rfl
    exact hpunctuation (by decide)
  have hwords : ∀ w ∈ poundWords, (ppFlag && w.isPrefixOf (c :: buf)) = false := by
    have hne : (chr '#' == c) = false := beq_eq_false_iff_ne.2 hpound.symm
    intro w hw
    obtain ⟨text, rfl⟩ : ∃ text, w = chr '#' :: text := by
      simp only [poundWords, List.mem_cons, List.not_mem_nil, or_false] at hw
      rcases hw with rfl | rfl | rfl | rfl | rfl | rfl | rfl <;> exact ⟨_, rfl⟩
    rw [List.isPrefixOf, hne, Bool.false_and, Bool.and_false]
  simp only [poundWords, List.forall_mem_cons, List.not_mem_nil, false_imp_iff, implies_true,
    and_true] at hwords
  obtain ⟨h1, h2, h3, h4, h5, h6, h7⟩ := hwords
  simp only [parseBranch, hdigit, hname, hquote, hconstant, hpound, hcomparison, hpunctuation,
    hbackslash, hend, hslash, h1, h2, h3, h4, h5, h6, h7, List.not_mem_nil, Bool.false_eq_true,
    false_and, or_self, if_false]

theorem parseBranch_stops (hname : isNameChar c = false) (hpassed : ¬IsPassed c) :
    (parseBranch [] true ppFlag c buf).Stops := by
  unfold parseBranch
  refine iteInduction (fun hdigit => ?_) fun _ => ?_
  · rw [isNameChar_of_isDigit hdigit] at hname
    cases hname
  refine iteInduction (fun h => by rw [hname] at h; cases h) fun _ => ?_
  refine iteInduction (fun _ => trivial) fun hquote => ?_
  refine iteInduction (fun _ => trivial) fun hconstant => ?_
  refine iteInduction (fun h => absurd h List.not_mem_nil) fun _ => ?_
  refine iteInduction (fun _ => trivial) fun _ => ?_
  refine iteInduction (fun _ => trivial) fun _ => ?_
  refine iteInduction (fun _ => trivial) fun _ => ?_
  refine iteInduction (fun _ => trivial) fun _ => ?_
  refine iteInduction (fun _ => trivial) fun _ => ?_
  refine iteInduction (fun _ => trivial) fun hpound => ?_
  refine iteInduction (fun _ => trivial) fun _ => ?_
  refine iteInduction (fun _ => trivial) fun _ => ?_
  refine iteInduction (fun _ => trivial) fun hcomparison => ?_
  refine iteInduction (fun _ => trivial) fun hpunctuation => ?_
  refine iteInduction (fun _ => trivial) fun hbackslash => ?_
  refine iteInduction (fun _ => trivial) fun hend => ?_
  exact hpassed ⟨hname, hquote, hconstant, fun h => hpound ⟨h, rfl⟩, hcomparison, hpunctuation,
    hbackslash, hend⟩

end

/-! ## The loop with enough turns -/

section

variable {ppFlag : Bool}

theorem ParseState.Ends.parseRun {s : ParseState} (h : s.Ends [] true ppFlag) (n : ℕ) :
    parseRun [] true ppFlag n s = s := by
  cases n with
  | zero => rfl
  | succ n =>
      rw [ScOpen.parseRun]
      cases hbuf : s.buf with
      | nil => rfl
      | cons c buf =>
          obtain ⟨hnumber, hname, hno, hother⟩ := h c buf hbuf
          dsimp only
          cases hbranch : parseBranch [] true ppFlag c buf with
          | number => exact absurd hbranch hnumber
          | name => exact absurd hbranch hname
          | noParse => exact absurd hbranch hno
          | other => exact if_neg (hother hbranch)
          | _ => rfl

theorem parseRun_add (m n : ℕ) {s : ParseState} (h : s.buf.length ≤ n) :
    parseRun [] true ppFlag (m + n) s = parseRun [] true ppFlag n s := by
  induction n generalizing s with
  | zero =>
      apply ParseState.Ends.parseRun
      exact parseRun_ends (n := 0) h
  | succ n ih =>
      rw [← Nat.add_assoc, ScOpen.parseRun, ScOpen.parseRun]
      cases hbuf : s.buf with
      | nil => rfl
      | cons c buf =>
          rw [hbuf, List.length_cons] at h
          dsimp only
          cases parseBranch [] true ppFlag c buf with
          | number =>
              apply ih
              have := (@numberLoop_length [] (s.token ++ [c]) buf (s.cnt + 1))
              omega
          | name =>
              apply ih
              have := nameLoop_length (s.token ++ [c]) buf (s.cnt + 1)
              omega
          | noParse => exact ih (Nat.le_of_succ_le_succ h)
          | other =>
              dsimp only
              rw [ih (s := { s with buf := buf, cnt := s.cnt + 1 }) (Nat.le_of_succ_le_succ h)]
          | _ => rfl

/-- The loop, up to where it stops. -/
def runTo (ppFlag : Bool) (s : ParseState) : ParseState := parseRun [] true ppFlag s.buf.length s

theorem parse_eq_runTo (source : Bytes) :
    parse source [] true ppFlag = parseEnd [] true ppFlag (runTo ppFlag ⟨[], .null, source, 0⟩) :=
  rfl

theorem parseRun_eq_runTo {n : ℕ} {s : ParseState} (h : s.buf.length ≤ n) :
    parseRun [] true ppFlag n s = runTo ppFlag s := by
  obtain ⟨m, rfl⟩ := Nat.exists_eq_add_of_le' h
  exact parseRun_add m _ (le_refl _)

variable {token buf : Bytes} {type : ParseType} {c : UInt8} {cnt : ℕ}

theorem runTo_nil : runTo ppFlag ⟨token, type, [], cnt⟩ = ⟨token, type, [], cnt⟩ := rfl

theorem runTo_digit (h : IsDigit c) : runTo ppFlag ⟨token, type, c :: buf, cnt⟩ =
    runTo ppFlag (numberLoop [] (token ++ [c]) buf (cnt + 1)) := by
  rw [runTo, List.length_cons, ScOpen.parseRun]
  simp only [parseBranch_of_isDigit h]
  apply parseRun_eq_runTo
  have := (@numberLoop_length [] (token ++ [c]) buf (cnt + 1))
  omega

theorem runTo_name (hdigit : ¬IsDigit c) (h : isNameChar c = true) :
    runTo ppFlag ⟨token, type, c :: buf, cnt⟩ =
      runTo ppFlag (nameLoop (token ++ [c]) buf (cnt + 1)) := by
  rw [runTo, List.length_cons, ScOpen.parseRun]
  simp only [parseBranch_of_isNameChar hdigit h]
  apply parseRun_eq_runTo
  have := nameLoop_length (token ++ [c]) buf (cnt + 1)
  omega

theorem runTo_passed (h : IsPassed c) : runTo ppFlag ⟨[], type, c :: buf, cnt⟩ =
    runTo ppFlag ⟨[], type, buf, cnt + 1⟩ := by
  rw [runTo, List.length_cons, ScOpen.parseRun]
  simp only [parseBranch_of_isPassed h, if_true]
  rfl

theorem runTo_stop (hname : isNameChar c = false) (h : IsPassed c → token ≠ []) :
    runTo ppFlag ⟨token, type, c :: buf, cnt⟩ = ⟨token, type, c :: buf, cnt⟩ := by
  apply ParseState.Ends.parseRun
  rintro c' buf' ⟨⟩
  by_cases hpassed : IsPassed c
  · rw [parseBranch_of_isPassed hpassed]
    exact ⟨by decide, by decide, by decide, fun _ => h hpassed⟩
  · have hstops := @parseBranch_stops ppFlag c buf hname hpassed
    cases hbranch : parseBranch [] true ppFlag c buf with
    | number => rw [hbranch] at hstops; exact hstops.elim
    | name => rw [hbranch] at hstops; exact hstops.elim
    | noParse => rw [hbranch] at hstops; exact hstops.elim
    | other => rw [hbranch] at hstops; exact hstops.elim
    | _ => exact ⟨by decide, by decide, by decide, fun h => by cases h⟩

theorem runTo_induction {P : ParseState → Prop}
    (nil : ∀ token type cnt, P ⟨token, type, [], cnt⟩)
    (digit : ∀ token type c buf cnt, IsDigit c → P (numberLoop [] (token ++ [c]) buf (cnt + 1)) →
      P ⟨token, type, c :: buf, cnt⟩)
    (name : ∀ token type c buf cnt, ¬IsDigit c → isNameChar c = true →
      P (nameLoop (token ++ [c]) buf (cnt + 1)) → P ⟨token, type, c :: buf, cnt⟩)
    (passed : ∀ type c buf cnt, IsPassed c → P ⟨[], type, buf, cnt + 1⟩ →
      P ⟨[], type, c :: buf, cnt⟩)
    (stop : ∀ token type c buf cnt, isNameChar c = false → (IsPassed c → token ≠ []) →
      P ⟨token, type, c :: buf, cnt⟩)
    (s : ParseState) : P s := by
  induction hlength : s.buf.length using Nat.strong_induction_on generalizing s with
  | _ n ih =>
      obtain ⟨token, type, buf, cnt⟩ := s
      subst hlength
      cases buf with
      | nil => exact nil token type cnt
      | cons c buf =>
          by_cases hdigit : IsDigit c
          · apply digit _ _ _ _ _ hdigit
            apply ih _ _ _ rfl
            have := (@numberLoop_length [] (token ++ [c]) buf (cnt + 1))
            simp only [List.length_cons]
            omega
          by_cases hname : isNameChar c = true
          · apply name _ _ _ _ _ hdigit hname
            apply ih _ _ _ rfl
            have := nameLoop_length (token ++ [c]) buf (cnt + 1)
            simp only [List.length_cons]
            omega
          by_cases hpassed : IsPassed c ∧ token = []
          · obtain ⟨hpassed, rfl⟩ := hpassed
            exact passed _ _ _ _ hpassed (ih _ (Nat.lt_succ_self _) _ rfl)
          · exact stop _ _ _ _ _ (Bool.eq_false_iff.2 hname) fun hc htoken => hpassed ⟨hc, htoken⟩

/-! ## A tail -/

def Cut (tail : Bytes) : Prop :=
  isNameChar (firstByte tail) = false ∧ firstByte tail ≠ chr '+' ∧ firstByte tail ≠ chr '-'

def ParseState.before (s : ParseState) (tail : Bytes) : ParseState := { s with buf := s.buf ++ tail }

variable {tail : Bytes}

theorem numberLoop_tail (h : Cut tail) (token : Bytes) (cnt : ℕ) :
    numberLoop [] token tail cnt = ⟨token, .number, tail, cnt⟩ := by
  cases tail with
  | nil => rfl
  | cons t tail =>
      have hname : isNameChar t = false := h.1
      have hdot : t ≠ chr '.' := by
        rintro rfl
        exact absurd hname (by decide)
      have he : ¬(t = chr 'e' ∨ t = chr 'E') := by
        rintro (rfl | rfl)
        · exact absurd hname (by decide)
        · exact absurd hname (by decide)
      have hdigit : ¬IsDigit t := fun hdigit => by
        rw [isNameChar_of_isDigit hdigit] at hname
        cases hname
      cases tail with
      | nil => rw [numberLoop, if_neg (by simp [hdigit, hdot])]
      | cons d tail =>
          rw [numberLoop, if_neg (by simp [hdigit, hdot]), if_neg fun h => he h.1,
            if_neg List.not_mem_nil]

theorem numberLoop_append (h : Cut tail) (token v : Bytes) (cnt : ℕ) :
    numberLoop [] token (v ++ tail) cnt = (numberLoop [] token v cnt).before tail := by
  induction token, v, cnt using numberLoop.induct [] with
  | case1 token c d v cnt hdigit ih =>
      rw [List.cons_append, List.cons_append, numberLoop, if_pos hdigit, numberLoop, if_pos hdigit]
      exact ih
  | case2 token c d v cnt hdigit hexp ih =>
      rw [List.cons_append, List.cons_append, numberLoop, if_neg hdigit, if_pos hexp, numberLoop,
        if_neg hdigit, if_pos hexp]
      exact ih
  | case3 token c d v cnt hdigit hexp hno ih => exact absurd hno List.not_mem_nil
  | case4 token c d v cnt hdigit hexp hno =>
      rw [List.cons_append, List.cons_append, numberLoop, if_neg hdigit, if_neg hexp, if_neg hno,
        numberLoop, if_neg hdigit, if_neg hexp, if_neg hno]
      rfl
  | case5 token c cnt hdigit =>
      rw [← or_assoc] at hdigit
      have hdigit := hdigit.resolve_right List.not_mem_nil
      have htaken : numberLoop [] token [c] cnt = ⟨token ++ [c], .number, [], cnt + 1⟩ := by
        rw [numberLoop, if_pos (or_assoc.1 (.inl hdigit))]
      rw [htaken]
      cases tail with
      | nil => exact htaken
      | cons t tail =>
          rw [List.singleton_append, numberLoop, if_pos hdigit]
          exact numberLoop_tail h (token ++ [c]) (cnt + 1)
  | case6 token c cnt hdigit =>
      have hkept : numberLoop [] token [c] cnt = ⟨token, .number, [c], cnt⟩ := by
        rw [numberLoop, if_neg hdigit]
      rw [hkept]
      cases tail with
      | nil => exact hkept
      | cons t tail =>
          rw [← or_assoc, not_or] at hdigit
          have hexp : ¬((c = chr 'e' ∨ c = chr 'E') ∧ (t = chr '+' ∨ t = chr '-')) :=
            fun hexp => hexp.2.elim h.2.1 h.2.2
          rw [List.singleton_append, numberLoop, if_neg hdigit.1, if_neg hexp, if_neg hdigit.2]
          rfl
  | case7 token cnt => exact numberLoop_tail h token cnt

theorem nameLoop_append (h : Cut tail) (token v : Bytes) (cnt : ℕ) :
    nameLoop token (v ++ tail) cnt = (nameLoop token v cnt).before tail := by
  induction v generalizing token cnt with
  | nil =>
      cases tail with
      | nil => rfl
      | cons t tail =>
          have hname : isNameChar t = false := h.1
          rw [List.nil_append, nameLoop, hname]
          rfl
  | cons c v ih =>
      rw [List.cons_append, nameLoop, nameLoop]
      by_cases hc : isNameChar c = true
      · rw [if_pos hc, if_pos hc]
        exact ih (token ++ [c]) (cnt + 1)
      · rw [if_neg hc, if_neg hc]
        rfl

/-- The loop takes the same of the first part of a text whatever is behind it. -/
theorem runTo_before (h : Cut tail) (s : ParseState) :
    runTo ppFlag (s.before tail) = runTo ppFlag ((runTo ppFlag s).before tail) := by
  induction s using runTo_induction with
  | nil token type cnt => rfl
  | digit token type c buf cnt hc ih =>
      rw [runTo_digit hc, ← ih, ← numberLoop_append h]
      exact runTo_digit hc
  | name token type c buf cnt hdigit hc ih =>
      rw [runTo_name hdigit hc, ← ih, ← nameLoop_append h]
      exact runTo_name hdigit hc
  | passed type c buf cnt hc ih =>
      rw [runTo_passed hc, ← ih]
      exact runTo_passed hc
  | stop token type c buf cnt hname hpassed => rw [runTo_stop hname hpassed]

/-! ## What has been taken -/

def IsWordlike (c : UInt8) : Prop := isNameChar c = true ∨ c = chr '+' ∨ c = chr '-'

instance (c : UInt8) : Decidable (IsWordlike c) := inferInstanceAs (Decidable (_ ∨ _))

theorem isWordlike_of_number {c : UInt8} (h : IsDigit c ∨ c = chr '.') : IsWordlike c := by
  rcases h with h | rfl
  · exact .inl (isNameChar_of_isDigit h)
  · exact .inl (by decide)

theorem numberLoop_taken (token v : Bytes) (cnt : ℕ) :
    ∃ q rest, v = q ++ rest ∧ (∀ c ∈ q, IsWordlike c) ∧
      numberLoop [] token v cnt = ⟨token ++ q, .number, rest, cnt + q.length⟩ := by
  induction token, v, cnt using numberLoop.induct [] with
  | case1 token c d v cnt hdigit ih =>
      obtain ⟨q, rest, hv, hq, hloop⟩ := ih
      refine ⟨c :: q, rest, congrArg (c :: ·) hv,
        List.forall_mem_cons.2 ⟨isWordlike_of_number hdigit, hq⟩, ?_⟩
      rw [numberLoop, if_pos hdigit, hloop, List.append_assoc, List.length_cons, Nat.add_right_comm]
      rfl
  | case2 token c d v cnt hdigit hexp ih =>
      obtain ⟨q, rest, hv, hq, hloop⟩ := ih
      have hc : IsWordlike c := by
        rcases hexp.1 with rfl | rfl
        · exact .inl (by decide)
        · exact .inl (by decide)
      refine ⟨c :: d :: q, rest, congrArg (c :: d :: ·) hv,
        List.forall_mem_cons.2 ⟨hc, List.forall_mem_cons.2 ⟨.inr hexp.2, hq⟩⟩, ?_⟩
      rw [numberLoop, if_neg hdigit, if_pos hexp, hloop, List.append_assoc, List.length_cons,
        List.length_cons, Nat.add_right_comm]
      rfl
  | case3 token c d v cnt hdigit hexp hno ih => exact absurd hno List.not_mem_nil
  | case4 token c d v cnt hdigit hexp hno =>
      refine ⟨[], _, rfl, fun _ h => absurd h List.not_mem_nil, ?_⟩
      rw [numberLoop, if_neg hdigit, if_neg hexp, if_neg hno, List.append_nil]
      rfl
  | case5 token c cnt hdigit =>
      have hc : IsWordlike c :=
        isWordlike_of_number ((or_assoc.2 hdigit).resolve_right List.not_mem_nil)
      refine ⟨[c], [], rfl, List.forall_mem_singleton.2 hc, ?_⟩
      rw [numberLoop, if_pos hdigit]
      rfl
  | case6 token c cnt hdigit =>
      refine ⟨[], [c], rfl, fun _ h => absurd h List.not_mem_nil, ?_⟩
      rw [numberLoop, if_neg hdigit, List.append_nil]
      rfl
  | case7 token cnt =>
      refine ⟨[], [], rfl, fun _ h => absurd h List.not_mem_nil, ?_⟩
      rw [numberLoop, List.append_nil]
      rfl

theorem nameLoop_taken (token v : Bytes) (cnt : ℕ) :
    ∃ q rest, v = q ++ rest ∧ (∀ c ∈ q, IsWordlike c) ∧
      nameLoop token v cnt = ⟨token ++ q, .name, rest, cnt + q.length⟩ := by
  induction v generalizing token cnt with
  | nil =>
      refine ⟨[], [], rfl, fun _ h => absurd h List.not_mem_nil, ?_⟩
      rw [nameLoop, List.append_nil]
      rfl
  | cons c v ih =>
      rw [nameLoop]
      by_cases hc : isNameChar c = true
      · obtain ⟨q, rest, hv, hq, hloop⟩ := ih (token ++ [c]) (cnt + 1)
        refine ⟨c :: q, rest, congrArg (c :: ·) hv, List.forall_mem_cons.2 ⟨.inl hc, hq⟩, ?_⟩
        rw [if_pos hc, hloop, List.append_assoc, List.length_cons, Nat.add_right_comm]
        rfl
      · refine ⟨[], c :: v, rfl, fun _ h => absurd h List.not_mem_nil, ?_⟩
        rw [if_neg hc, List.append_nil]
        rfl

structure LoopTakes (s s' : ParseState) (p q : Bytes) : Prop where
  buf_eq : s.buf = p ++ (q ++ s'.buf)
  passed : ∀ c ∈ p, IsPassed c
  front : s.token ≠ [] → p = []
  wordlike : ∀ c ∈ q, IsWordlike c
  first : s.token = [] → ∀ c r, q = c :: r → isNameChar c = true
  token_eq : s'.token = s.token ++ q
  cnt_eq : s'.cnt = s.cnt + (p.length + q.length)
  type_eq : q = [] ∧ s'.type = s.type ∨ s'.type = .number ∨ s'.type = .name
  stops : ∀ c w, s'.buf = c :: w → isNameChar c = false ∧ (IsPassed c → s'.token ≠ [])

/-- A word is taken first. -/
theorem LoopTakes.word {s s' : ParseState} {p q q' : Bytes} {token rest : Bytes} {c : UInt8} {cnt : ℕ}
    {type type' : ParseType}
    (h : LoopTakes ⟨token ++ [c] ++ q', type', rest, cnt + 1 + q'.length⟩ s' p q)
    (hc : isNameChar c = true) (hq' : ∀ d ∈ q', IsWordlike d)
    (htype : type' = .number ∨ type' = .name) (hs : s = ⟨token, type, c :: (q' ++ rest), cnt⟩) :
    LoopTakes s s' [] (c :: (q' ++ q)) := by
  subst hs
  obtain rfl : p = [] := h.front (by simp)
  have hbuf : rest = q ++ s'.buf := h.buf_eq
  refine ⟨?_, fun _ h => absurd h List.not_mem_nil, fun _ => rfl, ?_, ?_, ?_, ?_, .inr ?_,
    h.stops⟩
  · rw [hbuf]
    simp
  · exact List.forall_mem_cons.2 ⟨.inl hc, List.forall_mem_append.2 ⟨hq', h.wordlike⟩⟩
  · rintro - d r ⟨⟩
    exact hc
  · rw [h.token_eq]
    simp
  · rw [h.cnt_eq]
    simp only [List.length_nil, List.length_cons, List.length_append]
    omega
  · rcases h.type_eq with ⟨-, heq⟩ | heq
    · rw [heq]
      exact htype
    · exact heq

theorem exists_loopTakes (s : ParseState) : ∃ p q, LoopTakes s (runTo ppFlag s) p q := by
  induction s using runTo_induction with
  | nil token type cnt =>
      exact ⟨[], [], rfl, by simp, fun _ => rfl, by simp, by simp, by simp [runTo_nil], rfl,
        .inl ⟨rfl, rfl⟩, fun c w h => by cases h⟩
  | digit token type c buf cnt hc ih =>
      obtain ⟨q', rest, rfl, hq', hloop⟩ := numberLoop_taken (token ++ [c]) buf (cnt + 1)
      rw [hloop] at ih
      obtain ⟨p, q, h⟩ := ih
      rw [runTo_digit hc, hloop]
      exact ⟨[], _, h.word (isNameChar_of_isDigit hc) hq' (.inl rfl) rfl⟩
  | name token type c buf cnt hdigit hc ih =>
      obtain ⟨q', rest, rfl, hq', hloop⟩ := nameLoop_taken (token ++ [c]) buf (cnt + 1)
      rw [hloop] at ih
      obtain ⟨p, q, h⟩ := ih
      rw [runTo_name hdigit hc, hloop]
      exact ⟨[], _, h.word hc hq' (.inr rfl) rfl⟩
  | passed type c buf cnt hc ih =>
      obtain ⟨p, q, h⟩ := ih
      rw [runTo_passed hc]
      refine ⟨c :: p, q, congrArg (c :: ·) h.buf_eq, List.forall_mem_cons.2 ⟨hc, h.passed⟩,
        fun hne => absurd rfl hne, h.wordlike, h.first, h.token_eq, ?_, h.type_eq, h.stops⟩
      rw [h.cnt_eq, List.length_cons]
      dsimp only
      omega
  | stop token type c buf cnt hname hpassed =>
      rw [runTo_stop hname hpassed]
      refine ⟨[], [], rfl, by simp, fun _ => rfl, by simp, by simp, by simp, rfl, .inl ⟨rfl, rfl⟩,
        ?_⟩
      rintro c' w ⟨⟩
      exact ⟨hname, hpassed⟩

end

end ScOpen
