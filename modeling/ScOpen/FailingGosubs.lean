import ScOpen.ActivityRuns

/-!
# Gosubs that fail

`cmdGosub` counts the call, stores the index to return to and goes to the label before it has looked
at the arguments, and it goes there whatever it has found. Each identifier that is looked up writes
its status over that of the label.
-/

namespace ScOpen

section

variable {σ : Type} (lang : Language σ)

def lineTokens (p : Running σ) : List Token :=
  p.ahead.takeWhile fun t => t.type ≠ .endOfLine

def UndefinedArgument (p : Running σ) : Prop :=
  ∃ k t, (lineTokens p)[k]? = some t ∧ t.type = .identifier ∧
    lang.variableGet .userRef (p.programIdx + k + 1) t.text p.env.user = none

def NoIdentifier (p : Running σ) : Prop := ∀ t ∈ lineTokens p, t.type ≠ .identifier

theorem ahead_of_some {p : Running σ} {t : Token} (h : p.tokens[p.programIdx]? = some t) :
    p.ahead = t :: p.tokens.drop (p.programIdx + 1) := by
  obtain ⟨hlt, ht⟩ := List.getElem?_eq_some_iff.1 h
  rw [Running.ahead, List.drop_eq_getElem_cons hlt, ht]

theorem lineTokens_end {p : Running σ} {t : Token} (h : p.tokens[p.programIdx]? = some t)
    (ht : t.type = .endOfLine) : lineTokens p = [] := by
  simp [lineTokens, ahead_of_some h, ht]

theorem lineTokens_cons {p q : Running σ} {t : Token} (h : p.tokens[p.programIdx]? = some t)
    (ht : t.type ≠ .endOfLine) (htokens : q.tokens = p.tokens)
    (hidx : q.programIdx = p.programIdx + 1) : lineTokens p = t :: lineTokens q := by
  have hq : q.ahead = p.tokens.drop (p.programIdx + 1) := by
    rw [Running.ahead, htokens, hidx]
  simp [lineTokens, ahead_of_some h, hq, ht]

theorem getToken_some {p : Running σ} {t : Token} (h : p.tokens[p.programIdx]? = some t) :
    ∃ text, (t.type ≠ .variable_ → text = t.text) ∧ getToken lang p = (t.type, text,
      ⟨p.tokens, p.programIdx + 1, p.programIdx, p.env⟩) := by
  by_cases ht : t.type = .variable_
  · refine ⟨lang.evaluateToken (p.programIdx + 1) t.text p.env.user, fun hne => (hne ht).elim, ?_⟩
    simp only [getToken, getProgramTokenNoEval, getProgramToken, h, if_pos ht]
  · refine ⟨t.text, fun _ => rfl, ?_⟩
    simp only [getToken, getProgramTokenNoEval, getProgramToken, h, if_neg ht]

variable {lang}

theorem undefinedArgument_cons {p q : Running σ} {t : Token}
    (h : p.tokens[p.programIdx]? = some t) (ht : t.type ≠ .endOfLine)
    (htokens : q.tokens = p.tokens) (hidx : q.programIdx = p.programIdx + 1)
    (henv : q.env = p.env) :
    UndefinedArgument lang p ↔
      (t.type = .identifier ∧
        lang.variableGet .userRef (p.programIdx + 1) t.text p.env.user = none) ∨
      UndefinedArgument lang q := by
  rw [UndefinedArgument, lineTokens_cons h ht htokens hidx]
  constructor
  · rintro ⟨k, s, hs, htype, hnone⟩
    cases k with
    | zero =>
        cases hs
        exact .inl ⟨htype, hnone⟩
    | succ k =>
        refine .inr ⟨k, s, by simpa using hs, htype, ?_⟩
        rw [hidx, henv, Nat.add_right_comm p.programIdx 1 k]
        exact hnone
  · rintro (⟨htype, hnone⟩ | ⟨k, s, hs, htype, hnone⟩)
    · exact ⟨0, t, rfl, htype, hnone⟩
    · refine ⟨k + 1, s, by simpa using hs, htype, ?_⟩
      rw [hidx, henv, Nat.add_right_comm p.programIdx 1 k] at hnone
      exact hnone

theorem noIdentifier_cons {p q : Running σ} {t : Token} (h : p.tokens[p.programIdx]? = some t)
    (ht : t.type ≠ .endOfLine) (htokens : q.tokens = p.tokens)
    (hidx : q.programIdx = p.programIdx + 1) :
    NoIdentifier p ↔ t.type ≠ .identifier ∧ NoIdentifier q := by
  rw [NoIdentifier, lineTokens_cons h ht htokens hidx, List.forall_mem_cons]
  rfl

/-- Beyond the last token the loop goes on for ever. -/
theorem gosubQueue_beyond (iret : ℕ) (queue : List (TokenType × Bytes)) (n : ℕ) {p : Running σ}
    (h : p.tokens[p.programIdx]? = none) : gosubQueue lang iret queue n p = none := by
  induction n generalizing iret queue p with
  | zero => rfl
  | succ n ih =>
      have hget : getToken lang p =
          (.nullToken, [], { p with savedProgramIdx := p.programIdx }) := by
        simp only [getToken, getProgramTokenNoEval, getProgramToken, h]
        rfl
      rw [gosubQueue, hget]
      exact ih iret _ h

/-- The loop over the arguments ends with a status other than 0 exactly when an identifier is not
defined, or when the status was not 0 before and no identifier has overwritten it. -/
theorem gosubQueue_status {iret : ℕ} {queue : List (TokenType × Bytes)} {n : ℕ} {p : Running σ}
    {r : ℕ × List (TokenType × Bytes) × Running σ}
    (h : gosubQueue lang iret queue n p = some r) :
    r.1 ≠ 0 ↔ UndefinedArgument lang p ∨ (iret ≠ 0 ∧ NoIdentifier p) := by
  induction n generalizing iret queue p with
  | zero => cases h
  | succ n ih =>
      cases ht : p.tokens[p.programIdx]? with
      | none =>
          rw [gosubQueue_beyond _ _ _ ht] at h
          cases h
      | some t =>
          obtain ⟨text, htext, hget⟩ := getToken_some lang ht
          rw [gosubQueue, hget] at h
          simp only at h
          by_cases hend : t.type = .endOfLine
          · rw [if_pos hend] at h
            cases h
            simp [UndefinedArgument, NoIdentifier, lineTokens_end ht hend]
          · have hundefined : UndefinedArgument lang p ↔ _ := undefinedArgument_cons
              (q := ⟨p.tokens, p.programIdx + 1, p.programIdx, p.env⟩) ht hend rfl rfl rfl
            have hidentifier := noIdentifier_cons
              (q := ⟨p.tokens, p.programIdx + 1, p.programIdx, p.env⟩) ht hend rfl rfl
            rw [if_neg hend] at h
            rw [hundefined, hidentifier]
            by_cases hcomma : t.type = .comma
            · rw [if_pos hcomma] at h
              simpa [hcomma] using ih h
            · rw [if_neg hcomma] at h
              by_cases htype : t.type = .identifier
              · rw [if_pos htype, htext (by simp [htype])] at h
                cases hvalue : lang.variableGet .userRef (p.programIdx + 1) t.text p.env.user with
                | none =>
                    rw [hvalue] at h
                    cases h
                    simp [htype]
                | some value =>
                    rw [hvalue] at h
                    simpa [htype] using ih h
              · rw [if_neg htype] at h
                simpa [htype] using ih h

/-! ## The command -/

variable (lang)

/-- The program after the name of the label. -/
def atArguments (p : Running σ) : Running σ := (getToken lang p).2.2

def gosubTarget (p : Running σ) : Option ℕ :=
  lang.label (atArguments lang p).programIdx (getToken lang p).2.1 (atArguments lang p).env.user

def gosubArguments (p : Running σ) : Option (ℕ × List (TokenType × Bytes) × Running σ) :=
  gosubQueue lang (if gosubTarget lang p = none then 1 else 0) []
    ((atArguments lang p).ahead.length + 1) (atArguments lang p)

def WrongArguments (p : Running σ) : Prop :=
  ∃ iret queue q, gosubArguments lang p = some (iret, queue, q) ∧
    (lang.takeArguments queue q.tokens ((gosubTarget lang p).getD 0) q.env.user).1 ≠ 0

def GosubFails (p : Running σ) : Prop :=
  gosubTarget lang p = none ∨ UndefinedArgument lang (atArguments lang p) ∨ WrongArguments lang p

/-- The command has failed and left nothing behind: the nest depth and the variables are those
before it, and the program stands on the line of the command. -/
structure Undone (p : Running σ) (r : ℕ × Running σ) : Prop where
  status : r.1 ≠ 0
  nest : r.2.env.control.nest = p.env.control.nest
  user : r.2.env.user = p.env.user
  onLine : ∃ k ≤ (lineTokens p).length, r.2.programIdx = p.programIdx + k

/-- What a gosub does, failing or not, once its first loop has ended: the call is counted, an index
to return to is stored for it, the program stands behind what was taken at the label or, when there
is no such label, at the start of the program, and an identifier hides that there is none. -/
structure GosubEffects (p : Running σ) (r : ℕ × Running σ) : Prop where
  nest : r.2.env.control.nest = p.env.control.nest + 1
  returnIdx : ∃ idx, r.2.env.control.returnIdx (p.env.control.nest + 1) = some idx
  moved : ∃ iret queue q, gosubArguments lang p = some (iret, queue, q) ∧
    let t := lang.takeArguments queue q.tokens ((gosubTarget lang p).getD 0) q.env.user
    r.2.programIdx = (gosubTarget lang p).getD 0 + t.2.1 ∧ r.2.env.user = t.2.2
  status : r.1 ≠ 0 ↔ WrongArguments lang p ∨ UndefinedArgument lang (atArguments lang p) ∨
    (gosubTarget lang p = none ∧ NoIdentifier (atArguments lang p))

variable {lang}

theorem cmdGosub_effects {p : Running σ} {r : ℕ × Running σ} (h : cmdGosub lang p = some r) :
    GosubEffects lang p r := by
  obtain ⟨idx, -, hcontrol⟩ := cmdGosub_control h
  simp only [cmdGosub, Option.bind_eq_bind] at h
  obtain ⟨⟨iret, queue, q⟩, hqueue, hr⟩ := Option.bind_eq_some_iff.1 h
  have hargs : gosubArguments lang p = some (iret, queue, q) := hqueue
  have hstatus := gosubQueue_status hqueue
  have hwrong : WrongArguments lang p ↔
      (lang.takeArguments queue q.tokens ((gosubTarget lang p).getD 0) q.env.user).1 ≠ 0 := by
    constructor
    · rintro ⟨iret', queue', q', hargs', hne⟩
      rw [hargs] at hargs'
      cases hargs'
      exact hne
    · exact fun hne => ⟨iret, queue, q, hargs, hne⟩
  have htarget : (if gosubTarget lang p = none then 1 else 0) ≠ 0 ↔ gosubTarget lang p = none := by
    split
    · rename_i hnone
      exact iff_of_true one_ne_zero hnone
    · rename_i hsome
      exact iff_of_false (fun hne => hne rfl) hsome
  have hfirst : r.1 =
      if (lang.takeArguments queue q.tokens ((gosubTarget lang p).getD 0) q.env.user).1 ≠ 0 then
        (lang.takeArguments queue q.tokens ((gosubTarget lang p).getD 0) q.env.user).1
      else iret := by
    cases hr
    rfl
  have hmoved :
      let t := lang.takeArguments queue q.tokens ((gosubTarget lang p).getD 0) q.env.user
      r.2.programIdx = (gosubTarget lang p).getD 0 + t.2.1 ∧ r.2.env.user = t.2.2 := by
    cases hr
    exact ⟨rfl, rfl⟩
  refine ⟨?_, ⟨idx, ?_⟩, ⟨iret, queue, q, hargs, hmoved⟩, ?_⟩
  · rw [hcontrol]
    rfl
  · rw [hcontrol]
    exact Function.update_self _ _ _
  · have hiret : iret ≠ 0 ↔ UndefinedArgument lang (atArguments lang p) ∨
        (gosubTarget lang p = none ∧ NoIdentifier (atArguments lang p)) := by
      rw [← htarget]
      exact hstatus
    rw [hwrong, ← hiret]
    by_cases htaken :
        (lang.takeArguments queue q.tokens ((gosubTarget lang p).getD 0) q.env.user).1 = 0
    · rw [htaken]
      simp only [ne_eq, not_true_eq_false, false_or]
      rw [hfirst, if_neg (not_not.2 htaken)]
    · refine iff_of_true ?_ (.inl htaken)
      rw [hfirst, if_pos htaken]
      exact htaken

variable (lang)

/-- No gosub, and so none that fails, leaves the nest depth as it was. -/
theorem gosub_never_undone (p : Running σ) :
    (¬ ∃ r, cmdGosub lang p = some r ∧ Undone p r) ∧
      ∀ r, cmdGosub lang p = some r → GosubEffects lang p r := by
  constructor
  · rintro ⟨r, hr, hundone⟩
    have hnest := (cmdGosub_effects hr).nest
    have hsame := hundone.nest
    omega
  · exact fun r hr => cmdGosub_effects hr

end

def labelless : Language Unit where
  evaluateToken _ text _ := text
  expression _ i _ := ⟨0, [], 0, i, ()⟩
  variableGet _ _ _ _ := none
  variablePut _ _ _ _ _ := ()
  label _ _ _ := none
  takeArguments _ _ _ _ := (1, 1, ())
  command _ p := ⟨0, false, p⟩
  staleIdx := none

def gosubNowhere : Running Unit where
  tokens := [mark .gosub gosub_hasText, word (cstr "nowhere"),
    mark .endOfLine endOfLine_hasText]
  programIdx := 1
  savedProgramIdx := 0
  env := ⟨⟨0, 0, 0, fun _ => none, fun _ => none, fun _ => none, fun _ => none, fun _ => none⟩, ()⟩

theorem failing_gosub_not_always_undone :
    ¬ ∀ {σ : Type} (lang : Language σ) (p : Running σ), GosubFails lang p →
      ∃ r, cmdGosub lang p = some r ∧ Undone p r := by
  intro hall
  obtain ⟨r, hr, hundone⟩ := hall labelless gosubNowhere (.inl rfl)
  have hnest := (cmdGosub_effects hr).nest
  have hsame := hundone.nest
  omega

end ScOpen
