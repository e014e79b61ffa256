import ScOpen.StructuredWhiles

/-!
# Conditions that cannot be evaluated

An `if` chain should stop at a condition that cannot be evaluated. The command reports this only
for the condition of the `if` itself: the status of an `else_if` is dropped, and the interpreter
goes on right behind its condition, in the branch below it.
-/

namespace ScOpen

section

variable {σ : Type}

def Expr.Reports (lang : Language σ) (tokens : List Token) (i : ℕ) (e : Expr σ) : Prop :=
  ∀ user, e.eval user = none → (lang.expression tokens i user).iret ≠ 0

def Branches.Report (lang : Language σ) (tokens : List Token) (i : ℕ) : Branches σ → Prop
  | .endIf | .else_ _ => True
  | .elseIf c body rest =>
      c.Reports lang tokens (i + 1) ∧
        rest.Report lang tokens (i + (c.tokens.length + 1) + body.size)

def Branches.failing (i : ℕ) (user : σ) : Branches σ → Option (ℕ × σ)
  | .endIf | .else_ _ => none
  | .elseIf c body rest =>
      match c.test user with
      | none => some (i, user)
      | some (true, _) => none
      | some (false, user) => rest.failing (i + (c.tokens.length + 1) + body.size) user

theorem failing_of_choose (rest : Branches σ) (i : ℕ) {user : σ} (h : rest.choose user = none) :
    ∃ j user', rest.failing i user = some (j, user') := by
  cases rest with
  | endIf => cases h
  | else_ body => cases h
  | elseIf c body rest =>
      simp only [Branches.choose] at h
      simp only [Branches.failing]
      rcases htest : c.test user with _ | ⟨_ | _, user'⟩
      · exact ⟨i, user, rfl⟩
      · rw [htest] at h
        exact failing_of_choose rest _ h
      · rw [htest] at h
        cases h
termination_by structural rest

variable (lang : Language σ) {tokens : List Token}

theorem Expr.Reports.evaluate {e : Expr σ} {i : ℕ} (h : e.Reports lang tokens i) {user : σ}
    (htest : e.test user = none) (saved : ℕ) (control : Control) :
    (evaluate lang ⟨tokens, i, saved, ⟨control, user⟩⟩).1 ≠ 0 :=
  h user (Option.map_eq_none_iff.1 htest)

theorem cmdIf_fails {p : Running σ} (h : (evaluate lang p).1 ≠ 0) :
    cmdIf lang p = ((evaluate lang p).1, (evaluate lang p).2.2) := by
  rw [cmdIf]
  simp only [if_pos h]

theorem cmdIf_elseIf {c : Expr σ} {body : Code σ} {i : ℕ} (hc : c.Stands lang tokens i)
    {user user' : σ} (htest : c.test user = some (false, user'))
    (hrest : [mark .elseIf rfl] <+: tokens.drop (i + c.tokens.length + body.size))
    (hscan : ifEnd 0 (tokens.drop (i + c.tokens.length)) = body.size) (saved : ℕ)
    (control : Control) :
    ∃ saved', cmdIf lang ⟨tokens, i, saved, ⟨control, user⟩⟩ =
      (0, (cmdIf lang ⟨tokens, i + c.tokens.length + body.size + 1, saved',
        ⟨control, user'⟩⟩).2) := by
  obtain ⟨saved', hif⟩ := cmdIf_passes lang hc htest hrest (by simp [mark]) hscan saved control
  exact ⟨saved', hif.trans (by simp only [mark, if_true])⟩

/-- The command says that it went well, and stands right behind the condition that failed. -/
theorem cmdIf_failing (rest : Branches σ) {c : Expr σ} {body : Code σ} {i : ℕ}
    (hc : c.Stands lang tokens i) (hbody : body.Stands lang tokens (i + c.tokens.length))
    (hrest : rest.Stands lang tokens (i + c.tokens.length + body.size))
    (hreports : rest.Report lang tokens (i + c.tokens.length + body.size)) {user user' : σ}
    (htest : c.test user = some (false, user')) {j : ℕ} {user'' : σ}
    (hfails : rest.failing (i + c.tokens.length + body.size) user' = some (j, user''))
    (saved : ℕ) (control : Control) :
    ∃ saved', (evaluate lang ⟨tokens, j + 1, saved', ⟨control, user''⟩⟩).1 ≠ 0 ∧
      cmdIf lang ⟨tokens, i, saved, ⟨control, user⟩⟩ =
        (0, (evaluate lang ⟨tokens, j + 1, saved', ⟨control, user''⟩⟩).2.2) := by
  have hscan := ifEnd_stands lang hbody hrest
  cases rest with
  | endIf => cases hfails
  | else_ body' => cases hfails
  | elseIf c' body' rest' =>
      obtain ⟨helse, hc', hbody', hrest'⟩ := hrest
      obtain ⟨hreport, hreports'⟩ := hreports
      obtain ⟨saved₁, hif⟩ := cmdIf_elseIf lang hc htest helse hscan saved control
      have hplace : i + c.tokens.length + body.size + (c'.tokens.length + 1) =
          i + c.tokens.length + body.size + 1 + c'.tokens.length := by omega
      rw [hplace] at hbody' hrest' hreports'
      simp only [Branches.failing, hplace] at hfails
      rw [hif]
      rcases htest' : c'.test user' with _ | ⟨_ | _, user₁⟩
      · rw [htest'] at hfails
        cases hfails
        have hfail := hreport.evaluate lang htest' saved₁ control
        exact ⟨saved₁, hfail, by rw [cmdIf_fails lang hfail]⟩
      · rw [htest'] at hfails
        obtain ⟨saved₂, hfail, heq⟩ :=
          cmdIf_failing rest' hc' hbody' hrest' hreports' htest' hfails saved₁ control
        exact ⟨saved₂, hfail, by rw [heq]⟩
      · rw [htest'] at hfails
        cases hfails
termination_by structural rest

/-- Where the loop goes on after a failed command; `none` when it is left. -/
def goesOn (p : Running σ) : Option ℕ :=
  let (iret, errorIdx, _) := getErrorToken lang p
  if iret ≠ 0 then none else errorIdx

/-- The chain that the program stands at, up to the index `e`, stops: the command reports a
failure, and the loop does not go on inside of the chain. -/
structure ChainStops (e : ℕ) (p : Running σ) : Prop where
  reported : (cmdIf lang (getToken lang p).2.2).1 ≠ 0
  outside : (turn lang p).after = .go →
    ¬(p.programIdx < (turn lang p).program.programIdx ∧ (turn lang p).program.programIdx < e)

theorem turn_if (saved : ℕ) (env : InterpEnv σ) {i : ℕ} (h : [mark .if_ rfl] <+: tokens.drop i) :
    turn lang ⟨tokens, i, saved, env⟩ =
      afterCommand lang (i, .if_) (noWait (cmdIf lang ⟨tokens, i + 1, i, env⟩)) := by
  obtain ⟨text, -, hget⟩ := getToken_segment lang h saved env
  simp only [turn, hget, mark]
  rfl

/-- After a failed command the loop goes on as the error clause says, or is left. -/
theorem afterCommand_go {d : Dispatch} {r : ℕ × Running σ} (h : r.1 ≠ 0) :
    (∃ j, goesOn lang r.2 = some j ∧ (afterCommand lang d (noWait r)).after = .go ∧
        (afterCommand lang d (noWait r)).program.programIdx = j) ∨
      goesOn lang r.2 = none ∧ (afterCommand lang d (noWait r)).after ≠ .go := by
  have h₀ : ¬r.1 = 0 := h
  simp only [afterCommand, noWait, goesOn]
  by_cases hiret : (getErrorToken lang r.2).1 = 0
  · cases herror : (getErrorToken lang r.2).2.1 with
    | none => exact .inr (by simp [h₀, hiret])
    | some j =>
        exact .inl ⟨j, by simp [hiret], by simp [h₀, hiret],
          by simp [h₀, hiret, setProgramTokenIdx]⟩
  · exact .inr (by simp [h₀, hiret])

/-- A chain stops exactly when the condition that fails is the one of the `if`, and no error
clause leads back into the chain. -/
theorem chain_stops_iff {c : Expr σ} {body next : Code σ} {rest : Branches σ} {i : ℕ}
    (hstands : (Code.ifThen c body rest next).Stands lang tokens i)
    (hreport : c.Reports lang tokens (i + 1))
    (hreports : rest.Report lang tokens (i + (c.tokens.length + 1) + body.size)) (saved : ℕ)
    (control : Control) {user : σ} (hfails : chooseBranch c body rest user = none) :
    ChainStops lang (i + (c.tokens.length + 1) + body.size + rest.size)
        ⟨tokens, i, saved, ⟨control, user⟩⟩ ↔
      c.test user = none ∧
        ∀ j, goesOn lang (evaluate lang ⟨tokens, i + 1, i, ⟨control, user⟩⟩).2.2 = some j →
          ¬(i < j ∧ j < i + (c.tokens.length + 1) + body.size + rest.size) := by
  obtain ⟨hif, hc, hbody, hrest, -⟩ := hstands
  obtain ⟨text, -, hget⟩ := getToken_segment lang hif saved ⟨control, user⟩
  have hturn := turn_if lang saved ⟨control, user⟩ hif
  rcases htest : c.test user with _ | ⟨b, user'⟩
  · have hfail := hreport.evaluate lang htest i control
    have hcmd := cmdIf_fails lang hfail
    have hne : (cmdIf lang ⟨tokens, i + 1, i, ⟨control, user⟩⟩).1 ≠ 0 := by
      rw [hcmd]
      exact hfail
    have hafter := afterCommand_go lang (d := (i, .if_)) hne
    rw [← hturn, hcmd] at hafter
    simp only [true_and]
    constructor
    · intro hstops j hj
      rcases hafter with ⟨j', hj', hgo, hidx⟩ | ⟨hnone, -⟩
      · have hout := hstops.outside hgo
        rw [hj'] at hj
        cases hj
        rw [hidx] at hout
        exact hout
      · rw [hnone] at hj
        cases hj
    · intro hout
      refine ⟨by rw [hget]; exact hne, ?_⟩
      intro hgo
      rcases hafter with ⟨j', hj', -, hidx⟩ | ⟨-, hleave⟩
      · rw [hidx]
        exact hout j' hj'
      · exact absurd hgo hleave
  · constructor
    · intro hstops
      have hplace : i + (c.tokens.length + 1) = i + 1 + c.tokens.length := by omega
      have hfalse : b = false := by
        cases b with
        | false => rfl
        | true =>
            rw [chooseBranch, htest] at hfails
            cases hfails
      rw [chooseBranch, htest, hfalse] at hfails
      rw [hplace] at hbody hrest hreports
      obtain ⟨j, user'', hfailing⟩ :=
        failing_of_choose rest (i + 1 + c.tokens.length + body.size) hfails
      obtain ⟨saved', -, hcmd⟩ := cmdIf_failing lang rest hc hbody hrest hreports
        (by rw [htest, hfalse]) hfailing i control
      have hreported := hstops.reported
      rw [hget] at hreported
      exact absurd (congrArg Prod.fst hcmd) hreported
    · rintro ⟨hnone, -⟩
      cases hnone

end

/-! ## A chain that goes on -/

def wordLanguage : Language ℤ :=
  { countLanguage with
    expression := fun tokens i user =>
      match tokens[i]? with
      | none => ⟨1, [], 0, i, user⟩
      | some t => if t.type = .identifier then ⟨0, t.text, 1, i, user⟩ else ⟨1, [], 1, i, user⟩ }

def zeroWord : Expr ℤ where
  tokens := [word [chr '0']]
  neutral := .token rfl .nil
  eval user := some ([chr '0'], user)

def strayParen : Expr ℤ where
  tokens := [mark .closeParen closeParen_hasText]
  neutral := .token rfl .nil
  eval _ := none

def strayTokens : List Token :=
  [mark .if_ if_hasText, word [chr '0'], mark .elseIf elseIf_hasText,
    mark .closeParen closeParen_hasText, mark .let_ let_hasText, mark .endIf endIf_hasText]

def parenTokens : List Token :=
  [mark .if_ if_hasText, mark .closeParen closeParen_hasText, mark .let_ let_hasText,
    mark .endIf endIf_hasText]

def strayBranches : Branches ℤ := .elseIf strayParen (.statement (countUp 4) .done) .endIf

theorem strayParen_reports (tokens : List Token) (i : ℕ)
    (h : [mark .closeParen closeParen_hasText] <+: tokens.drop i) :
    strayParen.Reports wordLanguage tokens i := by
  intro user _
  simp [wordLanguage, getElem?_segment h, mark]

theorem stray_stands :
    (Code.ifThen zeroWord .done strayBranches .done).Stands wordLanguage strayTokens 0 := by
  refine ⟨⟨_, rfl⟩, ⟨⟨_, rfl⟩, ?_⟩, trivial, ⟨⟨_, rfl⟩, ⟨⟨_, rfl⟩, ?_⟩,
    ⟨⟨rfl, ⟨_, rfl⟩, ?_⟩, trivial⟩, ⟨_, rfl⟩⟩, trivial⟩
  · intro user value user' heval
    cases heval
    exact ⟨1, rfl⟩
  · intro user value user' heval
    cases heval
  · intro saved control user user' hrun
    cases hrun
    exact ⟨4, control, .refl control, rfl⟩

/-- The command says that an `else_if` without a value went well. -/
theorem failing_chain_not_always_stops :
    ¬∀ (σ : Type) (lang : Language σ) (tokens : List Token) (c : Expr σ) (body next : Code σ)
      (rest : Branches σ) (i : ℕ), (Code.ifThen c body rest next).Stands lang tokens i →
      c.Reports lang tokens (i + 1) →
      rest.Report lang tokens (i + (c.tokens.length + 1) + body.size) →
      ∀ (saved : ℕ) (control : Control) (user : σ), chooseBranch c body rest user = none →
        ChainStops lang (i + (c.tokens.length + 1) + body.size + rest.size)
          ⟨tokens, i, saved, ⟨control, user⟩⟩ := by
  intro h
  have hreports : strayBranches.Report wordLanguage strayTokens 2 :=
    ⟨strayParen_reports _ _ ⟨_, rfl⟩, trivial⟩
  have hstops := h ℤ wordLanguage strayTokens zeroWord .done .done strayBranches 0 stray_stands
    (fun _ he => by cases he) hreports 0 zeroControl 0 rfl
  obtain ⟨-, hc, hbody, hrest, -⟩ := stray_stands
  have htest : zeroWord.test 0 = some (false, 0) := rfl
  obtain ⟨saved, -, hcmd⟩ :=
    cmdIf_failing wordLanguage strayBranches hc hbody hrest hreports htest rfl 0 zeroControl
  exact hstops.reported (congrArg Prod.fst hcmd)

/-- Without an error clause, the chain stops at an `if` without a value. -/
theorem chain_stops_strayParen :
    ChainStops wordLanguage 4 ⟨parenTokens, 0, 0, ⟨zeroControl, (0 : ℤ)⟩⟩ := by
  have hstands : (Code.ifThen strayParen (.statement (countUp 2) .done) .endIf .done).Stands
      wordLanguage parenTokens 0 := by
    refine ⟨⟨_, rfl⟩, ⟨⟨_, rfl⟩, ?_⟩, ⟨⟨rfl, ⟨_, rfl⟩, ?_⟩, trivial⟩, ⟨_, rfl⟩, trivial⟩
    · intro user value user' heval
      cases heval
    · intro saved control user user' hrun
      cases hrun
      exact ⟨2, control, .refl control, rfl⟩
  refine (chain_stops_iff wordLanguage hstands (strayParen_reports _ _ ⟨_, rfl⟩) trivial 0
    zeroControl rfl).2 ⟨rfl, ?_⟩
  intro j hj
  cases hj

end ScOpen
