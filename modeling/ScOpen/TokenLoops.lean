import ScOpen.FailingGosubs
import ScOpen.GosubArguments
import ScOpen.MessageMarks
import ScOpen.SecsEncodeRight

/-!
# Loops over tokens at the end of a program

Behind the last token the reader returns the null token again and again. A loop that has no exit on
it ends only when what it looks for stands somewhere ahead.
-/

namespace ScOpen

/-! ## The loops of a gosub and of the syntax check -/

section

variable {σ : Type} (lang : Language σ)

def skipLineTokens : ℕ → Running σ → Option (Running σ)
  | 0, _ => none
  | n + 1, p =>
      let (type, _, p) := getToken lang p
      if type = .endOfLine then some p else skipLineTokens n p

def parameterLoop (m : QueueMemory) (stack : Bytes) :
    ℕ → Running σ → Taken → Option (Taken × Running σ)
  | 0, _, _ => none
  | n + 1, p, t =>
      let (type, name, p) := getToken lang p
      if type = .endOfLine then some (t, p)
      else if type = .comma then parameterLoop m stack n p t
      else if type = .identifier then
        if t.argCnt = 0 then some ({ t with iret := 1 }, p)
        else
          let a := m.dequeue stack t.ptr
          let varType := if a.type = TT_IDENTIFIER then VarType.userRef else .userLocal
          parameterLoop m stack n
            (p.setUser (lang.variablePut varType p.programIdx name a.value p.env.user))
            ⟨t.iret, t.argCnt - 1, t.ptr + 5 + a.value.length, t.taken ++ [(name, a)]⟩
      else some ({ t with iret := 1, argCnt := 0 }, p)

def LineEnds (p : Running σ) : Prop := ∃ t ∈ p.ahead, t.type = .endOfLine

theorem getToken_none {p : Running σ} (h : p.ahead = []) :
    getToken lang p = (.nullToken, [], { p with savedProgramIdx := p.programIdx }) := by
  have hnone : p.tokens[p.programIdx]? = none :=
    List.getElem?_eq_none (List.drop_eq_nil_iff.1 h)
  simp only [getToken, getProgramTokenNoEval, getProgramToken, hnone]
  rfl

theorem getToken_ahead {p : Running σ} {t : Token} {ts : List Token} (h : p.ahead = t :: ts) :
    ∃ text q, getToken lang p = (t.type, text, q) ∧ q.ahead = ts := by
  have hsome : p.tokens[p.programIdx]? = some t := by
    have h0 := congrArg (fun l => l[0]?) h
    simpa [Running.ahead] using h0
  obtain ⟨text, -, hget⟩ := getToken_some lang hsome
  exact ⟨text, _, hget, drop_succ_of_cons h⟩

variable {lang}

theorem lineEnds_cons {p q : Running σ} {t : Token} {ts : List Token} (h : p.ahead = t :: ts)
    (hq : q.ahead = ts) : LineEnds p ↔ t.type = .endOfLine ∨ LineEnds q := by
  rw [LineEnds, h, LineEnds, hq]
  simp only [List.mem_cons, exists_eq_or_imp]

theorem not_lineEnds {p : Running σ} (h : p.ahead = []) : ¬ LineEnds p := by
  rintro ⟨t, ht, -⟩
  rw [h] at ht
  cases ht

variable (lang) in
theorem skipLineTokens_iff (p : Running σ) :
    (∃ n r, skipLineTokens lang n p = some r) ↔ LineEnds p := by
  constructor
  · rintro ⟨n, r, h⟩
    induction n generalizing p with
    | zero => cases h
    | succ n ih =>
        cases hp : p.ahead with
        | nil =>
            simp only [skipLineTokens, getToken_none lang hp, reduceCtorEq, if_false] at h
            have hends := ih _ h
            exact hends
        | cons t ts =>
            obtain ⟨text, q, hget, hq⟩ := getToken_ahead lang hp
            simp only [skipLineTokens, hget] at h
            rw [lineEnds_cons hp hq]
            by_cases ht : t.type = .endOfLine
            · exact .inl ht
            · rw [if_neg ht] at h
              exact .inr (ih _ h)
  · intro hends
    induction hn : p.ahead generalizing p with
    | nil => exact (not_lineEnds hn hends).elim
    | cons t ts ih =>
        obtain ⟨text, q, hget, hq⟩ := getToken_ahead lang hn
        rw [lineEnds_cons hn hq] at hends
        by_cases ht : t.type = .endOfLine
        · refine ⟨1, q, ?_⟩
          simp only [skipLineTokens, hget, if_pos ht]
        · obtain ⟨n, r, hr⟩ := ih _ (hends.resolve_left ht) hq
          refine ⟨n + 1, r, ?_⟩
          simp only [skipLineTokens, hget, if_neg ht]
          exact hr

/-- The parameters end at the first token that is neither a parameter nor a comma. -/
theorem parameterLoop_ends (m : QueueMemory) (stack : Bytes) (p : Running σ) (t : Taken) :
    ∃ n r, parameterLoop lang m stack n p t = some r := by
  induction hn : p.ahead generalizing p t with
  | nil =>
      refine ⟨1, ({ t with iret := 1, argCnt := 0 }, { p with savedProgramIdx := p.programIdx }), ?_⟩
      simp only [parameterLoop, getToken_none lang hn]
      rfl
  | cons token ts ih =>
      obtain ⟨text, q, hget, hq⟩ := getToken_ahead lang hn
      by_cases hend : token.type = .endOfLine
      · refine ⟨1, (t, q), ?_⟩
        simp only [parameterLoop, hget, if_pos hend]
      by_cases hcomma : token.type = .comma
      · obtain ⟨n, r, hr⟩ := ih q t hq
        refine ⟨n + 1, r, ?_⟩
        simp only [parameterLoop, hget, if_neg hend, if_pos hcomma, hr]
      by_cases htype : token.type = .identifier
      · by_cases hzero : t.argCnt = 0
        · refine ⟨1, ({ t with iret := 1 }, q), ?_⟩
          simp only [parameterLoop, hget, if_neg hend, if_neg hcomma, if_pos htype, if_pos hzero]
        · let a := m.dequeue stack t.ptr
          let varType := if a.type = TT_IDENTIFIER then VarType.userRef else .userLocal
          obtain ⟨n, r, hr⟩ := ih
            (q.setUser (lang.variablePut varType q.programIdx text a.value q.env.user))
            ⟨t.iret, t.argCnt - 1, t.ptr + 5 + a.value.length, t.taken ++ [(text, a)]⟩ hq
          refine ⟨n + 1, r, ?_⟩
          simp only [parameterLoop, hget, if_neg hend, if_neg hcomma, if_pos htype, if_neg hzero]
          exact hr
      · refine ⟨1, ({ t with iret := 1, argCnt := 0 }, q), ?_⟩
        simp only [parameterLoop, hget, if_neg hend, if_neg hcomma, if_neg htype]

/-- The arguments end at the end of the line or at an identifier that is not defined. -/
theorem gosubQueue_iff (iret : ℕ) (queue : List (TokenType × Bytes)) (p : Running σ) :
    (∃ n r, gosubQueue lang iret queue n p = some r) ↔ LineEnds p ∨ UndefinedArgument lang p := by
  constructor
  · rintro ⟨n, r, h⟩
    induction n generalizing iret queue p with
    | zero => cases h
    | succ n ih =>
        cases ht : p.tokens[p.programIdx]? with
        | none =>
            rw [gosubQueue_beyond _ _ _ ht] at h
            cases h
        | some t =>
            obtain ⟨text, htext, hget⟩ := getToken_some lang ht
            have hp := ahead_of_some ht
            rw [gosubQueue, hget] at h
            simp only at h
            rw [lineEnds_cons (q := ⟨p.tokens, p.programIdx + 1, p.programIdx, p.env⟩) hp rfl]
            by_cases hend : t.type = .endOfLine
            · exact .inl (.inl hend)
            rw [if_neg hend] at h
            rw [undefinedArgument_cons
              (q := ⟨p.tokens, p.programIdx + 1, p.programIdx, p.env⟩) ht hend rfl rfl rfl]
            by_cases hcomma : t.type = .comma
            · rw [if_pos hcomma] at h
              exact (ih _ _ _ h).imp .inr .inr
            rw [if_neg hcomma] at h
            by_cases htype : t.type = .identifier
            · rw [if_pos htype, htext (by simp [htype])] at h
              cases hvalue : lang.variableGet .userRef (p.programIdx + 1) t.text p.env.user with
              | none => exact .inr (.inl ⟨htype, rfl⟩)
              | some value =>
                  rw [hvalue] at h
                  exact (ih _ _ _ h).imp .inr .inr
            · rw [if_neg htype] at h
              exact (ih _ _ _ h).imp .inr .inr
  · intro hends
    induction hn : p.ahead generalizing iret queue p with
    | nil =>
        rcases hends with hends | ⟨k, t, ht, -⟩
        · exact (not_lineEnds hn hends).elim
        · simp [lineTokens, hn] at ht
    | cons t ts ih =>
        have ht : p.tokens[p.programIdx]? = some t := by
          have h0 := congrArg (fun l => l[0]?) hn
          simpa [Running.ahead] using h0
        obtain ⟨text, htext, hget⟩ := getToken_some lang ht
        have hq : Running.ahead ⟨p.tokens, p.programIdx + 1, p.programIdx, p.env⟩ = ts :=
          drop_succ_of_cons hn
        by_cases hend : t.type = .endOfLine
        · refine ⟨1, (iret, queue, ⟨p.tokens, p.programIdx + 1, p.programIdx, p.env⟩), ?_⟩
          simp only [gosubQueue, hget, if_pos hend]
        rw [lineEnds_cons hn hq, undefinedArgument_cons
          (q := ⟨p.tokens, p.programIdx + 1, p.programIdx, p.env⟩) ht hend rfl rfl rfl] at hends
        by_cases htype : t.type = .identifier
        · have hne : t.type ≠ .comma := by simp [htype]
          cases hvalue : lang.variableGet .userRef (p.programIdx + 1) t.text p.env.user with
          | none =>
              refine ⟨1, (1, queue, ⟨p.tokens, p.programIdx + 1, p.programIdx, p.env⟩), ?_⟩
              simp only [gosubQueue, hget, if_neg hend, if_neg hne, if_pos htype,
                htext (by simp [htype]), hvalue]
          | some value =>
              have hnext := (hends.imp (Or.resolve_left · hend)
                (Or.resolve_left · fun h => by rw [hvalue] at h; cases h.2))
              obtain ⟨n, r, hr⟩ := ih 0 (queue ++ [(t.type, value)]) _ hnext hq
              refine ⟨n + 1, r, ?_⟩
              simp only [gosubQueue, hget, if_neg hend, if_neg hne, if_pos htype,
                htext (by simp [htype]), hvalue, hr]
        · have hnext := (hends.imp (Or.resolve_left · hend) (Or.resolve_left · fun h => htype h.1))
          by_cases hcomma : t.type = .comma
          · obtain ⟨n, r, hr⟩ := ih iret queue _ hnext hq
            refine ⟨n + 1, r, ?_⟩
            simp only [gosubQueue, hget, if_neg hend, if_pos hcomma, hr]
          · obtain ⟨n, r, hr⟩ := ih iret (queue ++ [(t.type, text)]) _ hnext hq
            refine ⟨n + 1, r, ?_⟩
            simp only [gosubQueue, hget, if_neg hend, if_neg hcomma, if_neg htype, hr]

end

/-! ## The loops of a message -/

def Closes (minus : Bool) : List Token → Prop
  | [] => False
  | [t] => t.type = .greaterThan
  | t :: u :: ts => t.type = .greaterThan ∨
      if minus ∧ t.type = .minus then Closes minus ts else Closes minus (u :: ts)

theorem closes_cons (minus : Bool) (t : Token) (ts : List Token) :
    Closes minus (t :: ts) ↔ t.type = .greaterThan ∨
      if minus ∧ t.type = .minus then Closes minus ts.tail else Closes minus ts := by
  cases ts with
  | nil => simp [Closes]
  | cons u ts => rw [Closes, List.tail_cons]

/-- A conversion other than that of a `BO` item never leaves the loop. -/
theorem convert_goes_on (scan : FloatScan) {t : SecsType} (ht : t ≠ .elements .boolean)
    (text : Bytes) : (t.convert scan text).stop = false := by
  rcases t with _ | _ | t
  · rfl
  · rfl
  · cases t with
    | boolean => exact (ht rfl).elim
    | binary => exact valuesLoop_stop _ _
    | unsigned1 => exact valuesLoop_stop _ _
    | unsigned2 => exact valuesLoop_stop _ _
    | unsigned4 => exact valuesLoop_stop _ _
    | unsigned8 => exact valuesLoop_stop _ _
    | signed1 => exact valuesLoop_stop _ _
    | signed2 => exact valuesLoop_stop _ _
    | signed4 => exact valuesLoop_stop _ _
    | signed8 => exact valuesLoop_stop _ _
    | float4 => exact floatsLoop_stop _ _ _ _
    | float8 => exact floatsLoop_stop _ _ _ _

section

variable {σ : Type}

def tokensAhead (p : Program σ) : List Token := p.tokens.drop p.programIdx

theorem getProgramToken_none (ev : Bytes → σ → Bytes × σ) {p : Program σ}
    (h : tokensAhead p = []) :
    getProgramToken ev p = (.nullToken, [], { p with savedProgramIdx := p.programIdx }) := by
  have hnone : p.tokens[p.programIdx]? = none :=
    List.getElem?_eq_none (List.drop_eq_nil_iff.1 h)
  simp only [getProgramToken, hnone]

theorem getProgramToken_ahead (ev : Bytes → σ → Bytes × σ) {p : Program σ} {t : Token}
    {ts : List Token} (h : tokensAhead p = t :: ts) :
    ∃ text q, getProgramToken ev p = (t.type, text, q) ∧ tokensAhead q = ts := by
  have hsome : p.tokens[p.programIdx]? = some t := by
    have h0 := congrArg (fun l => l[0]?) h
    simpa [tokensAhead] using h0
  by_cases ht : t.type = .variable_
  · refine ⟨(ev t.text p.env).1,
      ⟨p.tokens, p.programIdx + 1, p.programIdx, (ev t.text p.env).2⟩, ?_, drop_succ_of_cons h⟩
    simp only [getProgramToken, hsome, if_pos ht]
  · refine ⟨t.text, ⟨p.tokens, p.programIdx + 1, p.programIdx, p.env⟩, ?_, drop_succ_of_cons h⟩
    simp only [getProgramToken, hsome, if_neg ht]

variable (cmds : EncodeCommands σ) {minus : Bool} {convert : Bytes → Converted}

/-- The token that a minus token takes along, if there is one. -/
theorem getProgramToken_tail (ev : Bytes → σ → Bytes × σ) (p : Program σ) :
    ∃ type text q, getProgramToken ev p = (type, text, q) ∧
      tokensAhead q = (tokensAhead p).tail := by
  cases hp : tokensAhead p with
  | nil => exact ⟨_, _, _, getProgramToken_none ev hp, hp⟩
  | cons t ts =>
      obtain ⟨text, q, hget, hq⟩ := getProgramToken_ahead ev hp
      exact ⟨_, text, q, hget, hq⟩

theorem closes_of_itemLoop (hgo : ∀ text, (convert text).stop = false) {n : ℕ} {p : Program σ}
    {d : ItemData} {r : ItemData × Program σ} (h : itemLoop cmds minus convert n p d = some r) :
    Closes minus (tokensAhead p) := by
  induction n generalizing p d with
  | zero => cases h
  | succ n ih =>
      cases hp : tokensAhead p with
      | nil =>
          simp only [itemLoop, getProgramToken_none _ hp, reduceCtorEq, if_false, and_false, hgo,
            Bool.false_eq_true] at h
          have hcloses := ih h
          rw [← hp]
          exact hcloses
      | cons t ts =>
          obtain ⟨text, q, hget, hq⟩ := getProgramToken_ahead cmds.evaluateToken hp
          rw [closes_cons]
          by_cases hgt : t.type = .greaterThan
          · exact .inl hgt
          refine .inr ?_
          simp only [itemLoop, hget, if_neg hgt] at h
          by_cases hminus : minus = true ∧ t.type = .minus
          · obtain ⟨type', text', q', hget', hq'⟩ := getProgramToken_tail cmds.evaluateToken q
            simp only [if_pos hminus, hget', hgo, Bool.false_eq_true, if_false] at h
            rw [if_pos hminus, ← hq, ← hq']
            exact ih h
          · simp only [if_neg hminus, hgo, Bool.false_eq_true, if_false] at h
            rw [if_neg hminus, ← hq]
            exact ih h

theorem itemLoop_of_closes (p : Program σ) (d : ItemData) (h : Closes minus (tokensAhead p)) :
    ∃ n r, itemLoop cmds minus convert n p d = some r := by
  induction hn : (tokensAhead p).length using Nat.strong_induction_on generalizing p d with
  | _ k ih =>
      cases hp : tokensAhead p with
      | nil =>
          rw [hp] at h
          exact h.elim
      | cons t ts =>
          obtain ⟨text, q, hget, hq⟩ := getProgramToken_ahead cmds.evaluateToken hp
          rw [hp, closes_cons] at h
          rw [hp, List.length_cons] at hn
          by_cases hgt : t.type = .greaterThan
          · refine ⟨1, (d, putProgramToken q), ?_⟩
            simp only [itemLoop, hget, if_pos hgt]
          have hrest := h.resolve_left hgt
          by_cases hminus : minus = true ∧ t.type = .minus
          · obtain ⟨type', text', q', hget', hq'⟩ := getProgramToken_tail cmds.evaluateToken q
            rw [if_pos hminus, ← hq, ← hq'] at hrest
            have hshort : (tokensAhead q').length < k := by
              rw [hq', hq, List.length_tail]
              omega
            let c := convert (chr '-' :: cString text')
            let d' : ItemData := ⟨d.data ++ c.data, (d.numBytes + c.numBytes) % 2 ^ 32,
              if c.error then 1 else d.iret⟩
            obtain ⟨n, r, hr⟩ := ih _ hshort q' d' hrest rfl
            by_cases hstop : c.stop = true
            · refine ⟨1, (d', q'), ?_⟩
              simp only [itemLoop, hget, if_neg hgt, if_pos hminus, hget', c, d', hstop, if_true]
            · refine ⟨n + 1, r, ?_⟩
              simp only [itemLoop, hget, if_neg hgt, if_pos hminus, hget', c, hstop,
                Bool.false_eq_true, if_false]
              exact hr
          · rw [if_neg hminus, ← hq] at hrest
            have hshort : (tokensAhead q).length < k := by
              rw [hq]
              omega
            let c := convert text
            let d' : ItemData := ⟨d.data ++ c.data, (d.numBytes + c.numBytes) % 2 ^ 32,
              if c.error then 1 else d.iret⟩
            obtain ⟨n, r, hr⟩ := ih _ hshort q d' hrest rfl
            by_cases hstop : c.stop = true
            · refine ⟨1, (d', q), ?_⟩
              simp only [itemLoop, hget, if_neg hgt, if_neg hminus, c, d', hstop, if_true]
            · refine ⟨n + 1, r, ?_⟩
              simp only [itemLoop, hget, if_neg hgt, if_neg hminus, c, hstop, Bool.false_eq_true,
                if_false]
              exact hr

/-- The null token has no text, which is no boolean. -/
theorem itemLoop_boolean (p : Program σ) (d : ItemData) :
    ∃ n r, itemLoop cmds false convertBoolean n p d = some r := by
  induction hp : tokensAhead p generalizing p d with
  | nil =>
      refine ⟨1, (⟨d.data, d.numBytes % 2 ^ 32, 1⟩, { p with savedProgramIdx := p.programIdx }), ?_⟩
      have hnull : convertBoolean [] = ⟨[], 0, true, true⟩ := rfl
      simp only [itemLoop, getProgramToken_none _ hp, reduceCtorEq, Bool.false_eq_true, false_and,
        if_false, hnull, List.append_nil, Nat.add_zero, if_true]
  | cons t ts ih =>
      obtain ⟨text, q, hget, hq⟩ := getProgramToken_ahead cmds.evaluateToken hp
      by_cases hgt : t.type = .greaterThan
      · refine ⟨1, (d, putProgramToken q), ?_⟩
        simp only [itemLoop, hget, if_pos hgt]
      · let c := convertBoolean text
        let d' : ItemData := ⟨d.data ++ c.data, (d.numBytes + c.numBytes) % 2 ^ 32,
          if c.error then 1 else d.iret⟩
        obtain ⟨n, r, hr⟩ := ih q d' hq
        by_cases hstop : c.stop = true
        · refine ⟨1, (d', q), ?_⟩
          simp only [itemLoop, hget, if_neg hgt, Bool.false_eq_true, false_and, if_false, c, d',
            hstop, if_true]
        · refine ⟨n + 1, r, ?_⟩
          simp only [itemLoop, hget, if_neg hgt, Bool.false_eq_true, false_and, if_false, c, hstop]
          exact hr

theorem itemLoop_iff (scan : FloatScan) (t : SecsType) (p : Program σ) (d : ItemData) :
    (∃ n r, itemLoop cmds t.minus (t.convert scan) n p d = some r) ↔
      t = .elements .boolean ∨ Closes t.minus (tokensAhead p) := by
  by_cases ht : t = .elements .boolean
  · subst ht
    exact iff_of_true (itemLoop_boolean cmds p d) (.inl rfl)
  · constructor
    · rintro ⟨n, r, h⟩
      exact .inr (closes_of_itemLoop cmds (convert_goes_on scan ht) h)
    · exact fun h => itemLoop_of_closes cmds p d (h.resolve_left ht)

/-- The count stops on the null token; only a `for` or `next` can lead it back. -/
theorem countLoop_ends (nest cnt : ℕ) (p : Program σ)
    (h : ∀ t ∈ tokensAhead p, t.type ≠ .for_ ∧ t.type ≠ .next) :
    ∃ n r, countLoop cmds n nest cnt p = some r := by
  induction hp : tokensAhead p generalizing nest cnt p with
  | nil =>
      refine ⟨1, (cnt, { p with savedProgramIdx := p.programIdx }), ?_⟩
      simp only [countLoop, getProgramToken_none _ hp]
  | cons t ts ih =>
      obtain ⟨text, q, hget, hq⟩ := getProgramToken_ahead cmds.evaluateToken hp
      rw [hp, List.forall_mem_cons] at h
      have hrest : ∀ t ∈ tokensAhead q, t.type ≠ .for_ ∧ t.type ≠ .next := by
        rw [hq]
        exact h.2
      by_cases hnull : t.type = .nullToken
      · exact ⟨1, (cnt, q), by simp only [countLoop, hget, hnull]⟩
      by_cases hopen : t.type = .lessThan
      · obtain ⟨n, r, hr⟩ := ih (nest + 1) (if nest = 0 then cnt + 1 else cnt) q hrest hq
        exact ⟨n + 1, r, by simp only [countLoop, hget, hopen, hr]⟩
      by_cases hclose : t.type = .greaterThan
      · by_cases hzero : nest = 0
        · exact ⟨1, (cnt, q), by simp only [countLoop, hget, hclose, if_pos hzero]⟩
        · obtain ⟨n, r, hr⟩ := ih (nest - 1) cnt q hrest hq
          exact ⟨n + 1, r, by simp only [countLoop, hget, hclose, if_neg hzero, hr]⟩
      obtain ⟨n, r, hr⟩ := ih nest cnt q hrest hq
      refine ⟨n + 1, r, ?_⟩
      simp only [countLoop, hget]
      split
      · exact (hnull ‹_›).elim
      · exact (hopen ‹_›).elim
      · exact (hclose ‹_›).elim
      · exact (h.1.1 ‹_›).elim
      · exact (h.1.2 ‹_›).elim
      · exact hr

/-- The main loop stops on the null token. -/
theorem encodeLoop_at_end (scan : FloatScan) (st : EncodeState σ)
    (h : tokensAhead st.program = []) : ∃ n r, encodeLoop cmds scan n st = some r := by
  by_cases hiret : st.iret = 0
  · refine ⟨1, { st with
      program := { st.program with savedProgramIdx := st.program.programIdx } }, ?_⟩
    simp only [encodeLoop, hiret, ne_eq, not_true_eq_false, if_false, getProgramToken_none _ h]
  · exact ⟨1, st, by simp only [encodeLoop, ne_eq, hiret, not_false_eq_true, if_true]⟩

end

/-! ## All loops -/

/-- The main loop over a message and the count of a list have an exit on the null token, and so have
the loop of a `BO` item and the loop over the parameters. The loops of the other items, the loop over
the arguments and the skip of a line end exactly when what they look for is met ahead. -/
theorem token_loops_end_iff {σ τ : Type} (cmds : EncodeCommands σ) (scan : FloatScan)
    (lang : Language τ) (m : QueueMemory) :
    (∀ st : EncodeState σ, tokensAhead st.program = [] →
      ∃ n r, encodeLoop cmds scan n st = some r) ∧
    (∀ nest cnt (p : Program σ), (∀ t ∈ tokensAhead p, t.type ≠ .for_ ∧ t.type ≠ .next) →
      ∃ n r, countLoop cmds n nest cnt p = some r) ∧
    (∀ (t : SecsType) (p : Program σ) (d : ItemData),
      (∃ n r, itemLoop cmds t.minus (t.convert scan) n p d = some r) ↔
        t = .elements .boolean ∨ Closes t.minus (tokensAhead p)) ∧
    (∀ iret queue (p : Running τ), (∃ n r, gosubQueue lang iret queue n p = some r) ↔
      LineEnds p ∨ UndefinedArgument lang p) ∧
    (∀ stack (p : Running τ) (t : Taken), ∃ n r, parameterLoop lang m stack n p t = some r) ∧
    ∀ p : Running τ, (∃ n r, skipLineTokens lang n p = some r) ↔ LineEnds p :=
  ⟨encodeLoop_at_end cmds scan, countLoop_ends cmds, itemLoop_iff cmds scan, gosubQueue_iff,
    parameterLoop_ends m, skipLineTokens_iff lang⟩

def cutGosub : Running Unit :=
  ⟨[mark .gosub gosub_hasText, word (cstr "nowhere")], 2, 1, gosubNowhere.env⟩

/-- Behind the last token the loop of a text item, the loop over the arguments and the skip of a line
go on for ever. -/
theorem token_loops_not_always_end :
    (¬ ∀ {σ : Type} (cmds : EncodeCommands σ) (scan : FloatScan) (t : SecsType) (p : Program σ) d,
      ∃ n r, itemLoop cmds t.minus (t.convert scan) n p d = some r) ∧
    (¬ ∀ {σ : Type} (lang : Language σ) iret queue (p : Running σ),
      ∃ n r, gosubQueue lang iret queue n p = some r) ∧
    ¬ ∀ {σ : Type} (lang : Language σ) (p : Running σ),
      ∃ n r, skipLineTokens lang n p = some r := by
  have hends : ¬ LineEnds cutGosub := not_lineEnds rfl
  refine ⟨fun hall => ?_, fun hall => ?_, fun hall => ?_⟩
  · have h := (itemLoop_iff noCommands noScan .ascii ⟨[word (cstr "abc")], 0, 0, ()⟩ ⟨[], 0, 0⟩).1
      (hall _ _ _ _ _)
    rcases h with h | h
    · cases h
    · cases h
  · rcases (gosubQueue_iff 0 [] cutGosub).1 (hall labelless _ _ _) with h | ⟨k, t, ht, -⟩
    · exact hends h
    · cases ht
  · exact hends ((skipLineTokens_iff labelless _).1 (hall _ _))

end ScOpen
