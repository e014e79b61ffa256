import ScOpen.StructuredRun

/-!
# The turns of the interpreter in a structured program
-/

namespace ScOpen

section

variable {σ : Type} (lang : Language σ) {tokens : List Token}

theorem getElem?_segment {α : Type} {l ts : List α} {i : ℕ} {t : α}
    (h : (t :: ts) <+: l.drop i) : l[i]? = some t := by
  have hdrop := drop_segment h
  have hget := congrArg (·[0]?) hdrop
  simpa using hget

theorem segment_tail {α : Type} {l ts : List α} {i : ℕ} {t : α} (h : (t :: ts) <+: l.drop i) :
    ts <+: l.drop (i + 1) := by
  obtain ⟨rest, hrest⟩ := h
  rw [← List.drop_drop, ← hrest]
  exact List.prefix_append ts rest

theorem segment_drop {α : Type} {l ts us : List α} {i : ℕ} (h : (ts ++ us) <+: l.drop i) :
    us <+: l.drop (i + ts.length) := by
  obtain ⟨rest, hrest⟩ := h
  rw [← List.drop_drop, ← hrest, List.append_assoc, List.drop_left]
  exact List.prefix_append us rest

/-- Reading a token, whatever becomes of its text. -/
theorem getToken_segment {t : Token} {ts : List Token} {i : ℕ} (h : (t :: ts) <+: tokens.drop i)
    (saved : ℕ) (env : InterpEnv σ) :
    ∃ text, (t.type ≠ .variable_ → text = t.text) ∧
      getToken lang ⟨tokens, i, saved, env⟩ = (t.type, text, ⟨tokens, i + 1, i, env⟩) := by
  have hget := getElem?_segment h
  by_cases ht : t.type = .variable_
  · refine ⟨lang.evaluateToken (i + 1) t.text env.user, fun hne => absurd ht hne, ?_⟩
    simp only [getToken, getProgramTokenNoEval, getProgramToken, hget, ht, if_true]
  · refine ⟨_, fun _ => rfl, ?_⟩
    simp only [getToken, getProgramTokenNoEval, getProgramToken, hget, ht, if_false]

theorem readAfter_segment {t : Token} {ts : List Token} {i k : ℕ}
    (h : (t :: ts) <+: tokens.drop (i + k)) (saved : ℕ) (env : InterpEnv σ) :
    readAfter k ⟨tokens, i, saved, env⟩ = (t.type, t.text, ⟨tokens, i + k + 1, i + k, env⟩) := by
  have hget := getElem?_segment h
  by_cases ht : t.type = .variable_
  · simp only [readAfter, setProgramTokenIdx, getProgramTokenNoEval, getProgramToken, hget, ht,
      if_true]
  · simp only [readAfter, setProgramTokenIdx, getProgramTokenNoEval, getProgramToken, hget, ht,
      if_false]

theorem evaluate_stands {e : Expr σ} {i : ℕ} (h : e.Stands lang tokens i) {user user' : σ}
    {value : Bytes} (hvalue : e.eval user = some (value, user')) (saved : ℕ) (control : Control) :
    ∃ saved', evaluate lang ⟨tokens, i, saved, ⟨control, user⟩⟩ =
      (0, value, ⟨tokens, i + e.tokens.length, saved', ⟨control, user'⟩⟩) := by
  obtain ⟨saved', he⟩ := h.evaluates user value user' hvalue
  exact ⟨saved', by simp only [evaluate, he]⟩

theorem Expr.test_some {e : Expr σ} {user user' : σ} {b : Bool}
    (h : e.test user = some (b, user')) :
    ∃ value, e.eval user = some (value, user') ∧ (scanInt value ≠ 0 ↔ b = true) := by
  obtain ⟨⟨value, user₁⟩, heval, hb⟩ := Option.map_eq_some_iff.1 h
  cases hb
  exact ⟨value, heval, (decide_eq_true_iff).symm⟩

theorem turn_command (type : TokenType) {t : Token} {i saved : ℕ} {env : InterpEnv σ}
    {q : Running σ} (h : [t] <+: tokens.drop i) (ht : t.type = type)
    (htype : type.isControl = true)
    (hcommand : command lang type ⟨tokens, i + 1, i, env⟩ = some ⟨0, false, q⟩) :
    turn lang ⟨tokens, i, saved, env⟩ = ⟨some (i, type), .go, q⟩ := by
  obtain ⟨text, -, hget⟩ := getToken_segment lang h saved env
  rw [ht] at hget
  simp only [turn, hget]
  cases type <;> first
    | exact absurd htype Bool.false_ne_true
    | (simp only [runCommand, hcommand]; rfl)

/-- Lines, `then`, `end_if` and error clauses are passed over. -/
theorem turn_skip {t : Token} {i saved : ℕ} {env : InterpEnv σ} (h : [t] <+: tokens.drop i)
    (ht : t.type ∈ [.lineNumber, .endOfLine, .noError, .then_, .endIf]) :
    turn lang ⟨tokens, i, saved, env⟩ = ⟨none, .go, ⟨tokens, i + 1, i, env⟩⟩ := by
  obtain ⟨text, -, hget⟩ := getToken_segment lang h saved env
  simp only [List.mem_cons, List.not_mem_nil, or_false] at ht
  simp only [turn, hget]
  rcases ht with ht | ht | ht | ht | ht <;> simp only [ht]

theorem turn_filler {f : Filler} {i : ℕ} (h : f.tokens <+: tokens.drop i) (saved : ℕ)
    (env : InterpEnv σ) :
    ∃ saved', turn lang ⟨tokens, i, saved, env⟩ =
      ⟨none, .go, ⟨tokens, i + f.tokens.length, saved', env⟩⟩ := by
  rcases f.shape with ⟨t, htokens, htype⟩ | ⟨t, x, y, htokens, htype, -, -⟩
  · rw [htokens] at h ⊢
    have hmem : t.type ∈ [.lineNumber, .endOfLine, .noError, .then_, .endIf] := by
      simp only [List.mem_cons] at htype ⊢
      tauto
    exact ⟨i, turn_skip lang h hmem⟩
  · rw [htokens] at h ⊢
    have h₁ := segment_tail h
    obtain ⟨text, -, hget⟩ := getToken_segment lang h saved env
    obtain ⟨text₁, -, hget₁⟩ := getToken_segment lang h₁ i env
    obtain ⟨text₂, -, hget₂⟩ := getToken_segment lang (segment_tail h₁) (i + 1) env
    refine ⟨i + 1 + 1, ?_⟩
    rw [htype] at hget
    simp only [turn, hget, hget₁, hget₂]
    rfl

/-! ## Branches -/

theorem cmdIf_true {p q : Running σ} {value : Bytes} (he : evaluate lang p = (0, value, q))
    (hvalue : scanInt value ≠ 0) : cmdIf lang p = (0, q) := by
  rw [cmdIf]
  simp only [he, ne_eq, not_true_eq_false, if_false]
  rw [if_pos hvalue]

theorem cmdIf_false {p q r : Running σ} {value text : Bytes} {type : TokenType}
    (he : evaluate lang p = (0, value, q)) (hvalue : scanInt value = 0)
    (hr : readAfter (ifEnd 0 q.ahead) q = (type, text, r)) (htype : type ≠ .nullToken) :
    cmdIf lang p = (0, if type = .elseIf then (cmdIf lang r).2 else r) := by
  conv_lhs => rw [cmdIf]
  simp only [he, ne_eq, not_true_eq_false, if_false, hvalue, hr, htype]
  split <;> rfl

/-- When the condition is 0, the command goes on behind the token that the scan ends at. -/
theorem cmdIf_passes {c : Expr σ} {body : Code σ} {i : ℕ} (hc : c.Stands lang tokens i)
    {user user' : σ} (htest : c.test user = some (false, user')) {t : Token} {ts : List Token}
    (hrest : (t :: ts) <+: tokens.drop (i + c.tokens.length + body.size))
    (ht : t.type ≠ .nullToken)
    (hscan : ifEnd 0 (tokens.drop (i + c.tokens.length)) = body.size) (saved : ℕ)
    (control : Control) :
    ∃ saved', cmdIf lang ⟨tokens, i, saved, ⟨control, user⟩⟩ =
      (0, if t.type = .elseIf then
          (cmdIf lang ⟨tokens, i + c.tokens.length + body.size + 1, saved',
            ⟨control, user'⟩⟩).2
        else ⟨tokens, i + c.tokens.length + body.size + 1, saved', ⟨control, user'⟩⟩) := by
  obtain ⟨value, heval, hvalue⟩ := Expr.test_some htest
  obtain ⟨saved', he⟩ := evaluate_stands lang hc heval saved control
  have hzero : scanInt value = 0 := by
    by_contra hne
    exact absurd (hvalue.1 hne) Bool.false_ne_true
  have hread : readAfter (ifEnd 0 (tokens.drop (i + c.tokens.length)))
      ⟨tokens, i + c.tokens.length, saved', ⟨control, user'⟩⟩ =
        (t.type, t.text, ⟨tokens, i + c.tokens.length + body.size + 1,
          i + c.tokens.length + body.size, ⟨control, user'⟩⟩) := by
    rw [hscan]
    exact readAfter_segment hrest _ _
  exact ⟨i + c.tokens.length + body.size, cmdIf_false lang he hzero hread ht⟩

/-- The scan of a false `if` ends at the next branch. -/
theorem ifEnd_stands {body : Code σ} {rest : Branches σ} {i : ℕ}
    (hbody : body.Stands lang tokens i) (hrest : rest.Stands lang tokens (i + body.size)) :
    ifEnd 0 (tokens.drop i) = body.size := by
  rw [skips_ifEnd.code body i hbody 0]
  suffices h : ifEnd 0 (tokens.drop (i + body.size)) = 0 by rw [h, Nat.zero_add]
  cases rest with
  | endIf =>
      rw [drop_segment hrest]
      rfl
  | else_ body' =>
      rw [drop_segment hrest.1]
      rfl
  | elseIf c body' rest' =>
      rw [drop_segment hrest.1]
      rfl

def ChosenStands (tokens : List Token) (e : ℕ) (control : Control) (q : Running σ) :
    Option (Code σ × Branches σ) × σ → Prop
  | (none, user) => ∃ saved, q = ⟨tokens, e, saved, ⟨control, user⟩⟩
  | (some (b, r), user) =>
      ∃ j saved, q = ⟨tokens, j, saved, ⟨control, user⟩⟩ ∧ b.Stands lang tokens j ∧
        r.Stands lang tokens (j + b.size) ∧ j + b.size + r.size = e

theorem cmdIf_choose (rest : Branches σ) {c : Expr σ} {body : Code σ} {i : ℕ}
    (hc : c.Stands lang tokens i) (hbody : body.Stands lang tokens (i + c.tokens.length))
    (hrest : rest.Stands lang tokens (i + c.tokens.length + body.size)) {user : σ}
    {r : Option (Code σ × Branches σ) × σ} (hr : chooseBranch c body rest user = some r)
    (saved : ℕ) (control : Control) :
    ∃ q, cmdIf lang ⟨tokens, i, saved, ⟨control, user⟩⟩ = (0, q) ∧
      ChosenStands lang tokens (i + c.tokens.length + body.size + rest.size) control q r := by
  rw [chooseBranch] at hr
  split at hr
  · cases hr
  · rename_i user' htest
    obtain ⟨value, heval, hvalue⟩ := Expr.test_some htest
    obtain ⟨saved', he⟩ := evaluate_stands lang hc heval saved control
    cases hr
    exact ⟨_, cmdIf_true lang he (hvalue.2 rfl), _, _, rfl, hbody, hrest, rfl⟩
  · rename_i user' htest
    have hscan := ifEnd_stands lang hbody hrest
    cases rest with
    | endIf =>
        obtain ⟨saved', hif⟩ :=
          cmdIf_passes lang hc htest hrest (by simp [mark]) hscan saved control
        cases hr
        exact ⟨_, hif, _, rfl⟩
    | else_ body' =>
        obtain ⟨helse, hbody', hend⟩ := hrest
        obtain ⟨saved', hif⟩ :=
          cmdIf_passes lang hc htest helse (by simp [mark]) hscan saved control
        cases hr
        refine ⟨_, hif, _, _, rfl, hbody', hend, ?_⟩
        simp only [Branches.size]
        omega
    | elseIf c' body' rest' =>
        obtain ⟨helse, hc', hbody', hrest'⟩ := hrest
        have hplace : i + c.tokens.length + body.size + (c'.tokens.length + 1) =
            i + c.tokens.length + body.size + 1 + c'.tokens.length := by omega
        rw [hplace] at hbody' hrest'
        obtain ⟨saved', hif⟩ :=
          cmdIf_passes lang hc htest helse (by simp [mark]) hscan saved control
        obtain ⟨q, hq, hstands⟩ := cmdIf_choose rest' hc' hbody' hrest' hr saved' control
        refine ⟨q, ?_, ?_⟩
        · rw [hif]
          simp only [mark, if_true, hq]
        · have hsize : i + c.tokens.length + body.size + (Branches.elseIf c' body' rest').size =
              i + c.tokens.length + body.size + 1 + c'.tokens.length + body'.size +
                rest'.size := by
            simp only [Branches.size]
            omega
          rw [hsize]
          exact hstands
termination_by structural rest

/-- The last token of the branches is the `end_if` that belongs to their `if`. -/
theorem nestedEnd_branches (b : Branches σ) {i : ℕ} (h : b.Stands lang tokens i) :
    ∃ k, nestedEnd .if_ .endIf 0 (tokens.drop i) = k ∧ k + 1 = b.size ∧
      [mark .endIf rfl] <+: tokens.drop (i + k) := by
  cases b with
  | endIf =>
      refine ⟨0, ?_, rfl, h⟩
      rw [drop_segment h]
      rfl
  | else_ body =>
      obtain ⟨helse, hbody, hend⟩ := h
      refine ⟨1 + body.size, ?_, rfl, ?_⟩
      · rw [drop_segment helse, List.singleton_append, List.length_singleton]
        have hcode := skips_ifNestedEnd.code body _ hbody 0
        rw [drop_segment hend] at hcode
        have hpass : nestedEnd .if_ .endIf 0 (mark .else_ rfl :: tokens.drop (i + 1)) =
            nestedEnd .if_ .endIf 0 (tokens.drop (i + 1)) + 1 := rfl
        have hzero : nestedEnd .if_ .endIf 0 ([mark .endIf rfl] ++
            tokens.drop (i + 1 + body.size + [mark .endIf rfl].length)) = 0 := rfl
        rw [hzero] at hcode
        rw [hpass, hcode]
        omega
      · rw [← Nat.add_assoc]
        exact hend
  | elseIf c body rest =>
      obtain ⟨helse, hc, hbody, hrest⟩ := h
      obtain ⟨k, hk, hsize, hend⟩ := nestedEnd_branches rest hrest
      refine ⟨c.tokens.length + 1 + body.size + k, ?_, ?_, ?_⟩
      · rw [drop_segment helse, List.singleton_append, List.length_singleton]
        have hexpr := skips_ifNestedEnd.segment c.neutral hc.present 0
        have hcode := skips_ifNestedEnd.code body _ hbody 0
        have hpass : nestedEnd .if_ .endIf 0 (mark .elseIf rfl :: tokens.drop (i + 1)) =
            nestedEnd .if_ .endIf 0 (tokens.drop (i + 1)) + 1 := rfl
        rw [Nat.add_assoc, Nat.add_comm 1] at hexpr
        rw [hpass, hexpr, hcode, hk]
        omega
      · simp only [Branches.size]
        omega
      · rw [← Nat.add_assoc, ← Nat.add_assoc]
        exact hend
termination_by structural b

/-- At the end of a branch, `else` and `else_if` go to the end of all branches. -/
theorem turn_branchEnd {b : Branches σ} {i : ℕ} (h : b.Stands lang tokens i) (saved : ℕ)
    (env : InterpEnv σ) :
    ∃ d saved', turn lang ⟨tokens, i, saved, env⟩ = ⟨d, .go, ⟨tokens, i + b.size, saved', env⟩⟩ ∧
      ∀ x ∈ d, x.2.isControl = true := by
  have helse {t : Token} {type : TokenType} (ht : [t] <+: tokens.drop i) (htype : t.type = type)
      (hkind : type = .else_ ∨ type = .elseIf) :
      ∃ d saved', turn lang ⟨tokens, i, saved, env⟩ =
        ⟨d, .go, ⟨tokens, i + b.size, saved', env⟩⟩ ∧ ∀ x ∈ d, x.2.isControl = true := by
    obtain ⟨k, hk, hsize, hend⟩ := nestedEnd_branches lang b h
    have hpass : nestedEnd .if_ .endIf 0 (tokens.drop i) =
        nestedEnd .if_ .endIf 0 (tokens.drop (i + 1)) + 1 := by
      rw [drop_segment ht, List.singleton_append, List.length_singleton]
      rcases hkind with rfl | rfl <;> simp only [nestedEnd, htype, reduceCtorEq, if_false]
    have hcmd : cmdElse ⟨tokens, i + 1, i, env⟩ =
        ⟨tokens, i + b.size, i + b.size - 1, env⟩ := by
      have hplace : i + k = i + 1 + nestedEnd .if_ .endIf 0 (tokens.drop (i + 1)) := by omega
      rw [hplace] at hend
      have hidx : i + 1 + nestedEnd .if_ .endIf 0 (tokens.drop (i + 1)) + 1 = i + b.size := by
        omega
      have hsaved : i + 1 + nestedEnd .if_ .endIf 0 (tokens.drop (i + 1)) = i + b.size - 1 := by
        omega
      have hread := readAfter_segment hend i env
      rw [hidx, hsaved] at hread
      exact congrArg (·.2.2) hread
    refine ⟨some (i, type), i + b.size - 1, ?_, ?_⟩
    · apply turn_command lang type ht htype
      · rcases hkind with rfl | rfl <;> rfl
      · rcases hkind with rfl | rfl <;> simp only [command, hcmd, noWait]
    · rintro x hx
      cases hx
      rcases hkind with rfl | rfl <;> rfl
  cases b with
  | endIf => exact ⟨none, i, turn_skip lang h (by simp [mark]), by simp⟩
  | else_ body => exact helse h.1 rfl (.inl rfl)
  | elseIf c body rest => exact helse h.1 rfl (.inr rfl)

end

end ScOpen
