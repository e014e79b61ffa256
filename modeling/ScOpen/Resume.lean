import ScOpen.StructuredWhiles

/-!
# Resuming after a send

A send that waits for its reply keeps the index right after its message. When the reply arrives,
the program is resumed there, but one token is read before `execute` goes on. Had the send not
waited, `execute` would have gone on with that token.
-/

namespace ScOpen

section

variable {σ : Type} (lang : Language σ)

/-- `send_hsmsII()`, given what `secs_encode()` and `send_hsmsI()` return: the result of the
command, and the index in the open transaction. -/
def sendHsmsII (encoded : ℕ × Bool × Running σ) (sent : ℕ) : CommandResult σ × Option ℕ :=
  let (iret, waitBit, p) := encoded
  if iret ≠ 0 then (⟨iret, false, p⟩, none)
  else if sent ≠ 0 then (⟨sent, false, p⟩, none)
  else (⟨0, waitBit, p⟩, if waitBit then some p.programIdx else none)

/-- `resume_via_program_idx()`, up to its call of `execute()`. -/
def resumeViaProgramIdx (programIndex : ℕ) (p : Running σ) : Running σ :=
  (getToken lang (setProgramTokenIdx programIndex p)).2.2

def Dispatches (p : Running σ) (ds : List Dispatch) : Prop :=
  ∃ n, (executeTurns lang n p).1 = ds

def firstCommand : ℕ → ℕ → List Token → Option Dispatch
  | _, _, [] => none
  | skip + 1, i, _ :: ts => firstCommand skip (i + 1) ts
  | 0, i, t :: ts =>
      match t.type with
      | .nullToken | .after_ | .begin_ | .end_ | .break_ | .label => none
      | .lineNumber | .endOfLine | .endIf | .noError | .then_ => firstCommand 0 (i + 1) ts
      | .error_ => firstCommand 2 (i + 1) ts
      | type => some (i, type)

def nextCommand (tokens : List Token) (i : ℕ) : Option Dispatch := firstCommand 0 i (tokens.drop i)

/-! ## Turns without a command -/

variable {lang}

theorem dispatches_skip {p q : Running σ} (hturn : turn lang p = ⟨none, .go, q⟩)
    (ds : List Dispatch) : Dispatches lang p ds ↔ Dispatches lang q ds := by
  have hmore (n : ℕ) : (executeTurns lang (n + 1) p).1 = (executeTurns lang n q).1 := by
    simp only [executeTurns, hturn, Option.toList_none, List.nil_append]
  constructor
  · rintro ⟨n, hn⟩
    cases n with
    | zero => exact ⟨0, hn⟩
    | succ n => exact ⟨n, (hmore n).symm.trans hn⟩
  · rintro ⟨n, hn⟩
    exact ⟨n + 1, (hmore n).trans hn⟩

theorem dispatches_stop {iret : ℕ} {p q : Running σ} (hturn : turn lang p = ⟨none, .leave iret, q⟩)
    (ds : List Dispatch) : Dispatches lang p ds ↔ ds = [] := by
  constructor
  · rintro ⟨n, rfl⟩
    cases n with
    | zero => rfl
    | succ n => rw [executeTurns_leave hturn]
  · rintro rfl
    exact ⟨0, rfl⟩

/-- A turn that dispatches a command: it comes first, and it comes at once. -/
theorem dispatches_command {p : Running σ} {d : Dispatch}
    (hturn : (turn lang p).dispatched = some d) :
    Dispatches lang p [d] ∧ ∀ d' ds, Dispatches lang p (d' :: ds) → d' = d := by
  have hmore (n : ℕ) : ∃ ds, (executeTurns lang (n + 1) p).1 = d :: ds := by
    rw [executeTurns]
    cases (turn lang p).after with
    | go => exact ⟨_, by simp only [hturn]; rfl⟩
    | leave iret => exact ⟨[], by simp only [hturn]; rfl⟩
    | gone => exact ⟨[], by simp only [hturn]; rfl⟩
  constructor
  · refine ⟨1, ?_⟩
    rw [executeTurns]
    cases (turn lang p).after with
    | go => simp only [hturn]; rfl
    | leave iret => simp only [hturn]; rfl
    | gone => simp only [hturn]; rfl
  · rintro d' ds ⟨n, hn⟩
    cases n with
    | zero => cases hn
    | succ n =>
        obtain ⟨ds', hds⟩ := hmore n
        rw [hds] at hn
        cases hn
        rfl

/-- What was read before does not matter. -/
theorem turn_saved (tokens : List Token) (i saved saved' : ℕ) (env : InterpEnv σ) :
    turn lang ⟨tokens, i, saved, env⟩ = turn lang ⟨tokens, i, saved', env⟩ := by
  have hget : getToken lang ⟨tokens, i, saved, env⟩ = getToken lang ⟨tokens, i, saved', env⟩ := by
    simp only [getToken, getProgramTokenNoEval, getProgramToken]
  simp only [turn, hget]

theorem dispatches_saved (tokens : List Token) (i saved saved' : ℕ) (env : InterpEnv σ)
    (ds : List Dispatch) : Dispatches lang ⟨tokens, i, saved, env⟩ ds ↔
      Dispatches lang ⟨tokens, i, saved', env⟩ ds := by
  have hsame (n : ℕ) : (executeTurns lang n ⟨tokens, i, saved, env⟩).1 =
      (executeTurns lang n ⟨tokens, i, saved', env⟩).1 := by
    cases n with
    | zero => rfl
    | succ n => simp only [executeTurns, turn_saved tokens i saved saved' env]
  constructor
  · rintro ⟨n, hn⟩
    exact ⟨n, (hsame n).symm.trans hn⟩
  · rintro ⟨n, hn⟩
    exact ⟨n, (hsame n).trans hn⟩

/-! ## The next command -/

def TokenType.isStop : TokenType → Bool
  | .nullToken | .after_ | .begin_ | .end_ | .break_ | .label => true
  | _ => false

def TokenType.isPassed : TokenType → Bool
  | .lineNumber | .endOfLine | .endIf | .noError | .then_ => true
  | _ => false

theorem firstCommand_stop {t : Token} (i : ℕ) (ts : List Token) (h : t.type.isStop = true) :
    firstCommand 0 i (t :: ts) = none := by
  rw [firstCommand]
  cases ht : t.type <;> rw [ht] at h <;> first
    | rfl
    | exact absurd h Bool.false_ne_true

theorem firstCommand_passed {t : Token} (i : ℕ) (ts : List Token) (h : t.type.isPassed = true) :
    firstCommand 0 i (t :: ts) = firstCommand 0 (i + 1) ts := by
  rw [firstCommand]
  cases ht : t.type <;> rw [ht] at h <;> first
    | rfl
    | exact absurd h Bool.false_ne_true

theorem firstCommand_command {t : Token} (i : ℕ) (ts : List Token) (hstop : t.type.isStop = false)
    (hpassed : t.type.isPassed = false) (herror : t.type ≠ .error_) :
    firstCommand 0 i (t :: ts) = some (i, t.type) := by
  rw [firstCommand]
  cases ht : t.type <;> rw [ht] at hstop hpassed herror <;> first
    | rfl
    | exact absurd hstop.symm Bool.false_ne_true
    | exact absurd hpassed.symm Bool.false_ne_true
    | exact absurd rfl herror

theorem turn_isStop {tokens : List Token} {i saved : ℕ} {env : InterpEnv σ} {t : Token}
    (h : [t] <+: tokens.drop i) (ht : t.type.isStop = true) :
    turn lang ⟨tokens, i, saved, env⟩ = ⟨none, .leave 0, ⟨tokens, i + 1, i, env⟩⟩ := by
  obtain ⟨text, -, hget⟩ := getToken_segment lang h saved env
  simp only [turn, hget]
  cases htype : t.type <;> rw [htype] at ht <;> first
    | rfl
    | exact absurd ht Bool.false_ne_true

theorem turn_isPassed {tokens : List Token} {i saved : ℕ} {env : InterpEnv σ} {t : Token}
    (h : [t] <+: tokens.drop i) (ht : t.type.isPassed = true) :
    turn lang ⟨tokens, i, saved, env⟩ = ⟨none, .go, ⟨tokens, i + 1, i, env⟩⟩ := by
  obtain ⟨text, -, hget⟩ := getToken_segment lang h saved env
  simp only [turn, hget]
  cases htype : t.type <;> rw [htype] at ht <;> first
    | rfl
    | exact absurd ht Bool.false_ne_true

theorem turn_isCommand {tokens : List Token} {i saved : ℕ} {env : InterpEnv σ} {t : Token}
    (h : [t] <+: tokens.drop i) (hstop : t.type.isStop = false) (hpassed : t.type.isPassed = false)
    (herror : t.type ≠ .error_) :
    (turn lang ⟨tokens, i, saved, env⟩).dispatched = some (i, t.type) := by
  obtain ⟨text, -, hget⟩ := getToken_segment lang h saved env
  simp only [turn, hget]
  split
  all_goals first
    | exact runCommand_dispatched _ _ _
    | (rename_i ht
       rw [ht] at hstop hpassed herror
       first
         | exact absurd hstop.symm Bool.false_ne_true
         | exact absurd hpassed.symm Bool.false_ne_true
         | exact absurd rfl herror)

theorem getToken_program (tokens : List Token) (i saved : ℕ) (env : InterpEnv σ) :
    (getToken lang ⟨tokens, i, saved, env⟩).2.2 =
      ⟨tokens, if i < tokens.length then i + 1 else i, i, env⟩ := by
  by_cases hlt : i < tokens.length
  · have hhead : [tokens[i]] <+: tokens.drop i := by
      rw [List.drop_eq_getElem_cons hlt]
      exact List.prefix_append [tokens[i]] _
    obtain ⟨text, -, hget⟩ := getToken_segment lang hhead saved env
    rw [hget, if_pos hlt]
  · have hnone : tokens[i]? = none := List.getElem?_eq_none (not_lt.1 hlt)
    rw [if_neg hlt]
    simp only [getToken, getProgramTokenNoEval, getProgramToken, hnone]

/-- An error clause is passed over, if it is not cut off. -/
theorem turn_error (lang : Language σ) {tokens : List Token} {i saved : ℕ} {env : InterpEnv σ}
    {t : Token} (h : [t] <+: tokens.drop i) (ht : t.type = .error_) :
    ∃ j saved', turn lang ⟨tokens, i, saved, env⟩ = ⟨none, .go, ⟨tokens, j, saved', env⟩⟩ ∧
      i < j ∧ nextCommand tokens j = firstCommand 2 (i + 1) (tokens.drop (i + 1)) := by
  obtain ⟨text, -, hget⟩ := getToken_segment lang h saved env
  have hturn : turn lang ⟨tokens, i, saved, env⟩ = ⟨none, .go,
      (getToken lang (getToken lang ⟨tokens, i + 1, i, env⟩).2.2).2.2⟩ := by
    simp only [turn, hget, ht]
  rw [getToken_program tokens (i + 1) i env, getToken_program] at hturn
  refine ⟨_, _, hturn, ?_, ?_⟩
  · by_cases hone : i + 1 < tokens.length
    · rw [if_pos hone]
      split <;> omega
    · rw [if_neg hone, if_neg hone]
      omega
  · rw [nextCommand]
    rcases hrest : tokens.drop (i + 1) with _ | ⟨x, _ | ⟨y, ts⟩⟩
    · have hone : ¬i + 1 < tokens.length := not_lt.2 (List.drop_eq_nil_iff.1 hrest)
      rw [if_neg hone, if_neg hone, hrest]
      rfl
    · have hlen : tokens.length = i + 2 := by
        have hcount := congrArg List.length hrest
        rw [List.length_drop, List.length_singleton] at hcount
        omega
      have hone : i + 1 < tokens.length := by omega
      have htwo : ¬i + 1 + 1 < tokens.length := by omega
      rw [if_pos hone, if_neg htwo, List.drop_of_length_le (by omega)]
      rfl
    · have htwo : i + 1 + 1 < tokens.length := by
        have hcount := congrArg List.length hrest
        rw [List.length_drop, List.length_cons, List.length_cons] at hcount
        omega
      have hone : i + 1 < tokens.length := by omega
      have hdrop : tokens.drop (i + 1 + 1 + 1) = ts := by
        rw [Nat.add_assoc (i + 1), ← List.drop_drop, hrest]
        rfl
      rw [if_pos hone, if_pos htwo, hdrop]
      rfl

def ComesTo (lang : Language σ) (p : Running σ) : Option Dispatch → Prop
  | none => ∀ ds, Dispatches lang p ds ↔ ds = []
  | some d =>
      (turn lang ⟨p.tokens, d.1, d.1, p.env⟩).dispatched = some d ∧
        ∀ ds, Dispatches lang p ds ↔ Dispatches lang ⟨p.tokens, d.1, d.1, p.env⟩ ds

theorem ComesTo.of_skip {tokens : List Token} {i j saved saved' : ℕ} {env : InterpEnv σ}
    {d : Option Dispatch}
    (hturn : turn lang ⟨tokens, i, saved, env⟩ = ⟨none, .go, ⟨tokens, j, saved', env⟩⟩)
    (h : ComesTo lang ⟨tokens, j, saved', env⟩ d) : ComesTo lang ⟨tokens, i, saved, env⟩ d := by
  cases d with
  | none =>
      intro ds
      rw [dispatches_skip hturn]
      exact h ds
  | some d =>
      refine ⟨h.1, ?_⟩
      intro ds
      rw [dispatches_skip hturn]
      exact h.2 ds

theorem comesTo_nextCommand (lang : Language σ) (tokens : List Token) (env : InterpEnv σ)
    (i saved : ℕ) : ComesTo lang ⟨tokens, i, saved, env⟩ (nextCommand tokens i) := by
  induction hk : tokens.length - i using Nat.strong_induction_on generalizing i saved with
  | _ k ih =>
    rcases hrest : tokens.drop i with _ | ⟨t, ts⟩
    · have hstops : StopsAt tokens i := by
        intro t ht
        rw [List.getElem?_eq_none (List.drop_eq_nil_iff.1 hrest)] at ht
        cases ht
      obtain ⟨q, hturn, -⟩ := turn_stops lang hstops
      rw [nextCommand, hrest]
      exact dispatches_stop hturn
    · have hhead : [t] <+: tokens.drop i := by
        rw [hrest]
        exact List.prefix_append [t] ts
      have htail : tokens.drop (i + 1) = ts := by
        rw [← List.drop_drop, hrest]
        rfl
      have hlt : i < tokens.length := by
        by_contra hle
        rw [List.drop_of_length_le (not_lt.1 hle)] at hrest
        cases hrest
      rw [nextCommand, hrest]
      cases hstop : t.type.isStop with
      | true =>
          rw [firstCommand_stop i ts hstop]
          exact dispatches_stop (turn_isStop hhead hstop)
      | false =>
          cases hpassed : t.type.isPassed with
          | true =>
              rw [firstCommand_passed i ts hpassed, ← htail]
              exact .of_skip (turn_isPassed hhead hpassed) (ih _ (by omega) (i + 1) i rfl)
          | false =>
              by_cases herror : t.type = .error_
              · obtain ⟨j, saved', hturn, hj, hnext⟩ := turn_error lang hhead herror
                have hclause : firstCommand 0 i (t :: ts) = firstCommand 2 (i + 1) ts := by
                  rw [firstCommand, herror]
                rw [hclause, ← htail, ← hnext]
                exact .of_skip hturn (ih _ (by omega) j saved' rfl)
              · rw [firstCommand_command i ts hstop hpassed herror]
                exact ⟨turn_isCommand hhead hstop hpassed herror,
                  dispatches_saved tokens i saved i env⟩

/-- Two programs with the same variables and the same next command dispatch the same commands. -/
theorem ComesTo.congr {p q : Running σ} {d : Option Dispatch} (htokens : p.tokens = q.tokens)
    (henv : p.env = q.env) (hp : ComesTo lang p d) (hq : ComesTo lang q d) (ds : List Dispatch) :
    Dispatches lang p ds ↔ Dispatches lang q ds := by
  cases d with
  | none => exact (hp ds).trans (hq ds).symm
  | some d =>
      have hq' := hq.2 ds
      rw [← htokens, ← henv] at hq'
      exact (hp.2 ds).trans hq'.symm

/-- Programs that dispatch the same commands have the same next command. -/
theorem ComesTo.unique {p q : Running σ} {d d' : Option Dispatch} (hp : ComesTo lang p d)
    (hq : ComesTo lang q d') (h : ∀ ds, Dispatches lang p ds ↔ Dispatches lang q ds) : d = d' := by
  cases d with
  | none =>
      cases d' with
      | none => rfl
      | some d' =>
          have hfirst := (hq.2 [d']).2 (dispatches_command hq.1).1
          have hempty := (hp [d']).1 ((h [d']).2 hfirst)
          cases hempty
  | some d =>
      have hfirst := (h [d]).1 ((hp.2 [d]).2 (dispatches_command hp.1).1)
      cases d' with
      | none =>
          have hempty := (hq [d]).1 hfirst
          cases hempty
      | some d' =>
          have heq := (dispatches_command hq.1).2 d [] ((hq.2 [d]).1 hfirst)
          rw [heq]

/-! ## The resumed program -/

theorem sendHsmsII_waits {encoded : ℕ × Bool × Running σ} {sent programIndex : ℕ}
    (h : (sendHsmsII encoded sent).2 = some programIndex) :
    (sendHsmsII encoded sent).1.program = encoded.2.2 ∧
      programIndex = encoded.2.2.programIdx := by
  simp only [sendHsmsII] at h ⊢
  split at h
  · cases h
  · rename_i hiret
    split at h
    · cases h
    · rename_i hsent
      split at h
      · cases h
        exact ⟨by rw [if_neg hiret, if_neg hsent], rfl⟩
      · cases h

theorem comesTo_resumed (lang : Language σ) (tokens : List Token) (i programIndex saved : ℕ)
    (env : InterpEnv σ) : ComesTo lang (resumeViaProgramIdx lang programIndex ⟨tokens, i, saved, env⟩)
      (nextCommand tokens (programIndex + 1)) := by
  have hresumed : resumeViaProgramIdx lang programIndex ⟨tokens, i, saved, env⟩ =
      ⟨tokens, if programIndex < tokens.length then programIndex + 1 else programIndex,
        programIndex, env⟩ := getToken_program tokens programIndex saved env
  rw [hresumed]
  by_cases hlen : programIndex < tokens.length
  · rw [if_pos hlen]
    exact comesTo_nextCommand lang tokens env (programIndex + 1) programIndex
  · have hnone : nextCommand tokens (programIndex + 1) = nextCommand tokens programIndex := by
      rw [nextCommand, nextCommand, List.drop_of_length_le (by omega),
        List.drop_of_length_le (by omega)]
      rfl
    rw [if_neg hlen, hnone]
    exact comesTo_nextCommand lang tokens env programIndex programIndex

/-- A program that is resumed after a send that waited dispatches the same commands as one whose
send has returned at once, exactly when the token right after the message makes no difference to
the next command. -/
theorem resume_same_iff {encoded : ℕ × Bool × Running σ} {sent programIndex : ℕ}
    (hwait : (sendHsmsII encoded sent).2 = some programIndex) {p : Running σ}
    (htokens : p.tokens = encoded.2.2.tokens) :
    (∀ ds, Dispatches lang (resumeViaProgramIdx lang programIndex p) ds ↔
        Dispatches lang { (sendHsmsII encoded sent).1.program with env := p.env } ds) ↔
      nextCommand p.tokens (programIndex + 1) = nextCommand p.tokens programIndex := by
  obtain ⟨hprogram, hidx⟩ := sendHsmsII_waits hwait
  obtain ⟨iret, waitBit, tokens', j, saved', env'⟩ := encoded
  obtain ⟨tokens, i, saved, env⟩ := p
  obtain rfl : tokens = tokens' := htokens
  obtain rfl : programIndex = j := hidx
  rw [hprogram]
  have hresumed := comesTo_resumed lang tokens i programIndex saved env
  have hgoes := comesTo_nextCommand lang tokens env programIndex saved'
  constructor
  · exact fun h => hresumed.unique hgoes h
  · intro hnext
    rw [hnext] at hresumed
    have hsame : (resumeViaProgramIdx lang programIndex ⟨tokens, i, saved, env⟩).env = env := by
      rw [resumeViaProgramIdx, setProgramTokenIdx, getToken_program]
    have htokens' : (resumeViaProgramIdx lang programIndex ⟨tokens, i, saved, env⟩).tokens =
        tokens := by
      rw [resumeViaProgramIdx, setProgramTokenIdx, getToken_program]
    exact hresumed.congr htokens' hsame hgoes

end

/-! ## A clause after the message -/

theorem resume_same_endOfLine :
    Dispatches countLanguage
        (resumeViaProgramIdx countLanguage 3 ⟨sendTokens, 0, 0, ⟨zeroControl, 0⟩⟩) =
      Dispatches countLanguage ⟨sendTokens, 3, 2, ⟨zeroControl, 0⟩⟩ := by
  have hwait : (sendHsmsII (0, true, ⟨sendTokens, 3, 2, ⟨zeroControl, (0 : ℤ)⟩⟩) 0).2 = some 3 := rfl
  funext ds
  exact propext ((resume_same_iff hwait rfl).2 rfl ds)

/-- With an error clause after the message, the `=` of the clause is run as a command. -/
theorem resume_not_always_same :
    (sendHsmsII (0, true, ⟨clauseTokens, 3, 2, ⟨zeroControl, (0 : ℤ)⟩⟩) 0).2 = some 3 ∧
      ¬∀ ds, Dispatches countLanguage
          (resumeViaProgramIdx countLanguage 3 ⟨clauseTokens, 0, 0, ⟨zeroControl, 0⟩⟩) ds ↔
        Dispatches countLanguage ⟨clauseTokens, 3, 2, ⟨zeroControl, 0⟩⟩ ds := by
  refine ⟨rfl, ?_⟩
  intro h
  have hresumed : (turn countLanguage (resumeViaProgramIdx countLanguage 3
      ⟨clauseTokens, 0, 0, ⟨zeroControl, 0⟩⟩)).dispatched = some (4, .assign) := rfl
  have hnext : Dispatches countLanguage ⟨clauseTokens, 3, 2, ⟨zeroControl, 0⟩⟩ [(7, .let_)] :=
    ⟨3, rfl⟩
  have heq := (dispatches_command hresumed).2 _ _ ((h _).2 hnext)
  cases heq

end ScOpen
