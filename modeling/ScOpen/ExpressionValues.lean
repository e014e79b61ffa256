import ScOpen.SolvedExpressions

/-!
# The values of expressions
-/

namespace ScOpen.Expression

open Filter

section

variable {σ : Type} {ops : Operations σ} {ahead : List ExprToken} {below queue : List Entry}
  {token token' v w : Bytes} {user user' : σ} {type : TokenType}

/-! ## The arguments of functions -/

def isTermEnd : ExprType → Bool
  | .token .closeParen | .functionEnd => true
  | .token type => isOperand type
  | .function _ => false

theorem isTermEnd_operand (o : Operand) : isTermEnd (.token o.token.type) = true := by
  obtain ⟨⟨type, text, htext⟩, ho⟩ := o
  cases type <;> first | rfl | cases ho

theorem Term.queued_end (t : Term) :
    ∃ x xs, t.queued.reverse = x :: xs ∧ isTermEnd x.type = true := by
  cases t with
  | operand o => exact ⟨_, [], rfl, isTermEnd_operand o⟩
  | unary op t =>
      obtain ⟨x, xs, ht, hx⟩ := t.queued_end
      exact ⟨x, xs ++ [bare (.token op.queued)], by simp [Term.queued, ht], hx⟩
  | paren e =>
      exact ⟨bare (.token .closeParen), e.queued.reverse ++ [bare (.token .openParen)],
        by simp [Term.queued], rfl⟩
  | call0 place => exact ⟨bare .functionEnd, [bare (.function place)], rfl, rfl⟩
  | call place args =>
      exact ⟨bare .functionEnd, args.queued.reverse ++ [bare (.function place)],
        by simp [Term.queued], rfl⟩
termination_by structural t

theorem Exp.queued_end (e : Exp) :
    ∃ x xs, e.queued.reverse = x :: xs ∧ isTermEnd x.type = true := by
  cases e with
  | last t => exact t.queued_end
  | binary t op e =>
      obtain ⟨x, xs, he, hx⟩ := e.queued_end
      exact ⟨x, xs ++ bare (.token op.type) :: t.queued.reverse, by simp [Exp.queued, he], hx⟩
termination_by structural e

def argsFrom (ops : Operations σ) (iArg : ℕ) (vs : List Bytes) (n : ℕ) (s : Evaluation σ) :
    Except Stop (ℕ × Evaluation σ) :=
  functionArgs ops n iArg (vs.getD 0 []) (vs.getD 1 []) (vs.getD 2 []) s

theorem argsFrom_argument {x : Entry} {xs : List Entry} {n : ℕ} (vs : List Bytes)
    (hx : isTermEnd x.type = true) (hvs : vs.length < 3)
    (hsolve : (qToken x ⟨ahead, xs, x.text, user⟩ >>= solve ops n) =
      .ok (0, ⟨ahead, value type v :: queue, token', user'⟩)) :
    argsFrom ops vs.length vs (n + 1) ⟨ahead, x :: xs, token, user⟩ =
      argsFrom ops vs.length (vs ++ [v]) n ⟨ahead, queue, v, user'⟩ := by
  simp only [argsFrom, functionArgs, dqToken]
  split
  · rename_i place hplace
    rw [hplace] at hx
    cases hx
  · rename_i hcomma
    rw [hcomma] at hx
    cases hx
  · rw [← bind_assoc, hsolve]
    rcases vs with _ | ⟨v₀, _ | ⟨v₁, _ | ⟨v₂, vs⟩⟩⟩
    · rfl
    · rfl
    · rfl
    · simp only [List.length_cons] at hvs
      omega

def SolvesExp (ops : Operations σ) (es : List Entry) (v : Bytes) (user user' : σ) : Prop :=
  ∀ ahead below token, BelowExp below → es.length + below.length ≤ MAX_Q →
    ∃ type token' below', isOperand type = true ∧ Settled below below' ∧
      Goes ops ⟨ahead, es.reverse ++ below, token, user⟩
        ⟨ahead, value type v :: below', token', user'⟩

/-- The value of an expression above an entry that it ends at. -/
theorem SolvesExp.leaves {es : List Entry} (h : SolvesExp ops es v user user')
    (ahead : List ExprToken) (below : List Entry) (token : Bytes) {e : ExprType}
    (he : isBelow e = true) (hroom : es.length + 1 + below.length ≤ MAX_Q) :
    ∃ type token', isOperand type = true ∧
      Goes ops ⟨ahead, es.reverse ++ bare e :: below, token, user⟩
        ⟨ahead, value type v :: bare e :: below, token', user'⟩ := by
  obtain ⟨type, token', below', htype, hsettled, hgoes⟩ :=
    h ahead (bare e :: below) token (.inr ⟨e, below, rfl, he⟩) (by rw [List.length_cons]; omega)
  rw [hsettled.cons] at hgoes
  exact ⟨type, token', htype, hgoes⟩

theorem isBelow_of_isArgumentEnd {e : ExprType} (he : isArgumentEnd e = true) :
    isBelow e = true := by
  cases e with
  | token type => cases type <;> first | rfl | cases he
  | function place => rfl
  | functionEnd => cases he

/-- Solving one argument. -/
theorem argsFrom_exp (token : Bytes) (e : Exp) (h : SolvesExp ops e.queued v user user')
    {vs : List Bytes} (hvs : vs.length < 3) {stop : ExprType} (hstop : isArgumentEnd stop = true)
    (hroom : e.queued.length + 1 + below.length ≤ MAX_Q) {r : ℕ × Evaluation σ}
    (hr : Returns (fun n => argsFrom ops vs.length (vs ++ [v]) n
      ⟨ahead, bare stop :: below, v, user'⟩) r) :
    Returns (fun n => argsFrom ops vs.length vs n
      ⟨ahead, e.queued.reverse ++ bare stop :: below, token, user⟩) r := by
  obtain ⟨x, xs, hqueued, hx⟩ := e.queued_end
  have hlength : e.queued.length = xs.length + 1 := by
    rw [← List.length_reverse, hqueued, List.length_cons]
  obtain ⟨type, token', htype, hgoes⟩ :=
    h.leaves ahead below x.text (isBelow_of_isArgumentEnd hstop) hroom
  have hsolve := hgoes _ (solve_argument hstop htype (by omega))
  rw [hqueued] at hsolve ⊢
  refine Returns.of_succ ?_
  filter_upwards [hsolve, hr] with n hn hr
  have hpush : qToken x ⟨ahead, xs ++ bare stop :: below, x.text, user⟩ =
      .ok ⟨ahead, x :: (xs ++ bare stop :: below), x.text, user⟩ := by
    refine qToken_room x ahead x.text user ?_
    simp only [List.length_append, List.length_cons]
    omega
  have hsolve : (qToken x ⟨ahead, xs ++ bare stop :: below, x.text, user⟩ >>= solve ops n) =
      .ok (0, ⟨ahead, value type v :: bare stop :: below, token', user'⟩) := by
    rw [hpush]
    exact hn
  exact (argsFrom_argument vs hx hvs hsolve).trans hr

theorem argsFrom_comma (iArg : ℕ) (vs : List Bytes) (n : ℕ) :
    argsFrom ops iArg vs (n + 1) ⟨ahead, bare (.token .comma) :: queue, token, user⟩ =
      argsFrom ops (iArg + 1) vs n ⟨ahead, queue, [], user⟩ := rfl

/-- The function, once its arguments are solved. -/
theorem argsFrom_function (ahead : List ExprToken) (token : Bytes) {place : ℕ} {vs : List Bytes}
    (h : ops.call place vs user = some (v, user')) (hroom : queue.length < MAX_Q) :
    ∃ type, isOperand type = true ∧ ∀ n,
      argsFrom ops (vs.length - 1) vs (n + 1)
          ⟨ahead, bare (.function place) :: queue, token, user⟩ =
        .ok (0, ⟨ahead, value type v :: queue, v, user'⟩) := by
  simp only [Operations.call] at h
  split at h
  · rename_i hvalue
    obtain ⟨-, hiret, hpushed⟩ := hvalue
    obtain ⟨type, htype⟩ := Option.isSome_iff_exists.1 hpushed
    cases h
    refine ⟨type.type, by cases type <;> rfl, fun n => ?_⟩
    have hpush := qToken_room (value type.type
      (ops.function place (vs.length - 1) (vs.getD 0 []) (vs.getD 1 []) (vs.getD 2 []) user).token)
      ahead
      (ops.function place (vs.length - 1) (vs.getD 0 []) (vs.getD 1 []) (vs.getD 2 []) user).token
      (ops.function place (vs.length - 1) (vs.getD 0 []) (vs.getD 1 []) (vs.getD 2 []) user).user
      hroom
    simp only [argsFrom, functionArgs, dqToken, bare, htype, hiret]
    rw [value] at hpush
    rw [hpush]
    rfl
  · cases h

theorem Args.eval_cons {e : Exp} {args : Args} {ws : List Bytes} {user user' : σ}
    (h : (Args.cons e args).eval ops user = some (ws, user')) :
    ∃ vs v user₁, args.eval ops user = some (vs, user₁) ∧ e.eval ops user₁ = some (v, user') ∧
      ws = vs ++ [v] := by
  obtain ⟨⟨vs, user₁⟩, hargs, h⟩ := Option.bind_eq_some_iff.1 h
  obtain ⟨⟨v, user₂⟩, he, h⟩ := Option.bind_eq_some_iff.1 h
  cases h
  exact ⟨vs, v, user₁, hargs, he, rfl⟩

theorem Args.eval_one {e : Exp} {ws : List Bytes} {user user' : σ}
    (h : (Args.one e).eval ops user = some (ws, user')) :
    ∃ v, e.eval ops user = some (v, user') ∧ ws = [v] := by
  obtain ⟨⟨v, user₁⟩, he, h⟩ := Option.bind_eq_some_iff.1 h
  cases h
  exact ⟨v, he, rfl⟩

theorem Args.eval_length_pos {args : Args} {ws : List Bytes} {user user' : σ}
    (h : args.eval ops user = some (ws, user')) : 0 < ws.length := by
  cases args with
  | one e =>
      obtain ⟨v, -, rfl⟩ := Args.eval_one h
      exact Nat.one_pos
  | cons e args =>
      obtain ⟨vs, v, user₁, -, -, rfl⟩ := Args.eval_cons h
      simp

def SolvesArgs (ops : Operations σ) (args : Args) (ws : List Bytes) (user user' : σ) : Prop :=
  ∀ ahead below token (vs : List Bytes) stop, (vs ++ ws).length ≤ 3 → isArgumentEnd stop = true →
    args.queued.length + 1 + below.length ≤ MAX_Q →
    ∃ token', ∀ r,
      Returns (fun n => argsFrom ops ((vs ++ ws).length - 1) (vs ++ ws) n
        ⟨ahead, bare stop :: below, token', user'⟩) r →
      Returns (fun n => argsFrom ops vs.length vs n
        ⟨ahead, args.queued.reverse ++ bare stop :: below, token, user⟩) r

theorem solvesArgs_one {e : Exp} (h : SolvesExp ops e.queued v user user') :
    SolvesArgs ops (.one e) [v] user user' := by
  intro ahead below token vs stop hvs hstop hroom
  have hlength : (vs ++ [v]).length - 1 = vs.length := by simp
  rw [List.length_append, List.length_singleton] at hvs
  refine ⟨v, fun r hr => ?_⟩
  rw [hlength] at hr
  exact argsFrom_exp token e h (by omega) hstop hroom hr

theorem solvesArgs_cons {e : Exp} {args : Args} {ws : List Bytes} {user₁ : σ}
    (hargs : SolvesArgs ops args ws user user₁) (hpos : 0 < ws.length)
    (h : SolvesExp ops e.queued v user₁ user') :
    SolvesArgs ops (.cons e args) (ws ++ [v]) user user' := by
  intro ahead below token vs stop hvs hstop hroom
  have hroom' : args.queued.length + 1 + (e.queued.reverse ++ bare stop :: below).length ≤
      MAX_Q := by
    simp only [Args.queued, List.length_append, List.length_cons, List.length_reverse] at hroom ⊢
    omega
  have hroom'' : e.queued.length + 1 + below.length ≤ MAX_Q := by
    simp only [Args.queued, List.length_append, List.length_cons] at hroom
    omega
  simp only [List.length_append, List.length_singleton] at hvs
  have hlength : (vs ++ (ws ++ [v])).length - 1 = (vs ++ ws).length := by
    simp only [List.length_append, List.length_singleton]
    omega
  have hcomma : (vs ++ ws).length - 1 + 1 = (vs ++ ws).length := by
    rw [List.length_append]
    omega
  obtain ⟨token', hargs⟩ := hargs ahead (e.queued.reverse ++ bare stop :: below) token vs
    (.token .comma) (by rw [List.length_append]; omega) rfl hroom'
  refine ⟨v, fun r hr => ?_⟩
  rw [hlength, ← List.append_assoc] at hr
  have hqueue : (Args.cons e args).queued.reverse ++ bare stop :: below =
      args.queued.reverse ++ bare (.token .comma) :: (e.queued.reverse ++ bare stop :: below) := by
    simp [Args.queued]
  rw [hqueue]
  refine hargs r (Returns.of_succ ?_)
  have he := argsFrom_exp [] e h (by rw [List.length_append]; omega) hstop hroom'' hr
  filter_upwards [he] with n hn
  rw [argsFrom_comma, hcomma]
  exact hn

/-- A function with arguments. -/
theorem leaves_call {args : Args} {ws : List Bytes} {place : ℕ} {user₁ : σ}
    (hargs : SolvesArgs ops args ws user user₁) (hws : ws.length ≤ 3)
    (hcall : ops.call place ws user₁ = some (v, user')) :
    Leaves (solveFunction ops) (bare (.function place) :: args.queued) v user user' := by
  intro ahead below token hroom
  rw [List.length_cons] at hroom
  obtain ⟨token', hargs⟩ :=
    hargs ahead below token [] (.function place) hws rfl (by omega)
  have hroom' : below.length < MAX_Q := by omega
  obtain ⟨type, htype, hfunction⟩ := argsFrom_function ahead token' hcall hroom'
  refine ⟨type, v, htype, Returns.of_succ ?_⟩
  have hreturns := hargs _ (Returns.of_succ (.of_forall hfunction))
  filter_upwards [hreturns] with n hn
  rw [List.reverse_cons, List.append_assoc, List.singleton_append]
  exact hn

theorem leaves_call0 {place : ℕ} (hcall : ops.call place [] user = some (v, user')) :
    Leaves (solveFunction ops) [bare (.function place)] v user user' := by
  intro ahead below token hroom
  rw [List.length_singleton] at hroom
  have hroom' : below.length < MAX_Q := by omega
  obtain ⟨type, htype, hfunction⟩ := argsFrom_function ahead token hcall hroom'
  exact ⟨type, v, htype, Returns.of_succ (Returns.of_succ (.of_forall hfunction))⟩

/-! ## Expressions -/

theorem Solves.exp {es : List Entry} (h : Solves ops es v user user') :
    SolvesExp ops es v user user' := by
  intro ahead below token _ hroom
  obtain ⟨type, token', htype, hgoes⟩ := h ahead below token hroom
  exact ⟨type, token', below, htype, .inl rfl, hgoes⟩

theorem leaves_paren {es : List Entry} (h : SolvesExp ops es v user user') :
    Leaves (solve ops) (bare (.token .openParen) :: es) v user user' := by
  intro ahead below token hroom
  rw [List.length_cons] at hroom
  obtain ⟨type, token', htype, hgoes⟩ :=
    h.leaves ahead below token (e := .token .openParen) rfl (by omega)
  have hopen := hgoes _ (solve_openParen htype (by omega))
  refine ⟨type, token', htype, ?_⟩
  rw [List.reverse_cons, List.append_assoc, List.singleton_append]
  exact hopen

theorem eval_of_regroupLeft (t : Term) {op : BinaryOp} {e : Exp} {w : Bytes} {user user' : σ}
    (h : (regroupLeft t op e).eval ops user = some (w, user')) :
    ∃ v user₁, e.eval ops user = some (v, user₁) := by
  have hbinary {t : Term} (h : (Exp.binary t op e).eval ops user = some (w, user')) :
      ∃ v user₁, e.eval ops user = some (v, user₁) := by
    obtain ⟨⟨v, user₁⟩, he, -⟩ := Option.bind_eq_some_iff.1 h
    exact ⟨v, user₁, he⟩
  cases t with
  | operand o => exact hbinary h
  | paren e => exact hbinary h
  | call0 place => exact hbinary h
  | call place args => exact hbinary h
  | unary u t =>
      cases t with
      | operand o => exact hbinary h
      | paren e => exact hbinary h
      | call0 place => exact hbinary h
      | call place args => exact hbinary h
      | unary u' t =>
          let e' := regroupLeft (.unary u' t) op e
          have heval : (Term.unary u (.paren e')).eval ops user = some (w, user') := h
          obtain ⟨w', hw', -⟩ := Term.eval_unary heval
          exact eval_of_regroupLeft (.unary u' t) hw'
termination_by structural t

theorem solvesExp_binary {t : Term} {op : BinaryOp} {e : Exp} {user₁ : σ}
    (ht : t.BaseResolves ops) (he : e.regroup.eval ops user = some (v, user₁))
    (hsolves : SolvesExp ops e.queued v user user₁)
    (h : (Exp.binary t op e).regroup.eval ops user = some (w, user')) :
    SolvesExp ops (Exp.binary t op e).queued w user user' := by
  intro ahead below token hbelow hroom
  have hpos := e.queued_pos
  have hlength : (Exp.binary t op e).queued.length =
      t.queued.length + (e.queued.length + 1) := by
    simp [Exp.queued]
  have hright : BelowExp (bare (.token op.type) :: (t.queued.reverse ++ below)) := by
    refine .inr ⟨_, _, rfl, ?_⟩
    obtain ⟨type, hbinary⟩ := op
    cases type <;> first | rfl | cases hbinary
  obtain ⟨type, token₁, below₁, htype, hsettled, hgoes⟩ :=
    hsolves ahead (bare (.token op.type) :: (t.queued.reverse ++ below)) token hright (by
      simp only [List.length_cons, List.length_append, List.length_reverse]
      omega)
  rw [hsettled.cons] at hgoes
  obtain ⟨token₂, below₂, hsettled₂, hleft⟩ :=
    left_solves t ht op e.regroup he h below htype (by omega) (fun _ => hbelow) ahead token₁
  refine ⟨type, token₂, below₂, htype, hsettled₂, ?_⟩
  have hqueue : (Exp.binary t op e).queued.reverse ++ below =
      e.queued.reverse ++ bare (.token op.type) :: (t.queued.reverse ++ below) := by
    simp [Exp.queued]
  rw [hqueue]
  exact hgoes.trans hleft

mutual

theorem base_resolves (ops : Operations σ) (t : Term) : t.BaseResolves ops := by
  cases t with
  | operand o =>
      intro v user user' h
      cases h
      exact resolves_operand ops o user
  | unary op t => exact base_resolves ops t
  | paren e =>
      intro v user user' h
      exact resolves_paren (leaves_paren (exp_solves ops e h))
  | call0 place =>
      intro v user user' h
      exact resolves_call (leaves_call0 h)
  | call place args =>
      intro v user user' h
      obtain ⟨⟨ws, user₁⟩, hargs, hcall⟩ := Option.bind_eq_some_iff.1 h
      have hws : ws.length ≤ 3 := by
        by_contra hlength
        simp only [Operations.call] at hcall
        rw [if_neg (fun h => hlength h.1)] at hcall
        cases hcall
      exact resolves_call (leaves_call (args_solves ops args hargs) hws hcall)
termination_by structural t

/-- The loop comes to the value of the regrouped tree. -/
theorem exp_solves (ops : Operations σ) (e : Exp) {v : Bytes} {user user' : σ}
    (h : e.regroup.eval ops user = some (v, user')) : SolvesExp ops e.queued v user user' := by
  cases e with
  | last t => exact (term_solves t (base_resolves ops t) h).exp
  | binary t op e =>
      obtain ⟨v₁, user₁, he⟩ := eval_of_regroupLeft t.regroup h
      exact solvesExp_binary (base_resolves ops t) he (exp_solves ops e he) h
termination_by structural e

theorem args_solves (ops : Operations σ) (args : Args) {ws : List Bytes} {user user' : σ}
    (h : args.regroup.eval ops user = some (ws, user')) :
    SolvesArgs ops args ws user user' := by
  cases args with
  | one e =>
      obtain ⟨v, he, rfl⟩ := Args.eval_one h
      exact solvesArgs_one (exp_solves ops e he)
  | cons e args =>
      obtain ⟨vs, v, user₁, hargs, he, rfl⟩ := Args.eval_cons h
      exact solvesArgs_cons (args_solves ops args hargs) (Args.eval_length_pos hargs)
        (exp_solves ops e he)
termination_by structural args

end

theorem Returns.unique {α : Type} {run : ℕ → Except Stop α} {r r' : α} (h : Returns run r)
    (h' : Returns run r') : r = r' := by
  obtain ⟨n, hn, hn'⟩ := (h.and h').exists
  rw [hn] at hn'
  exact Except.ok.inj hn'

/-- `expression()` returns the value of the regrouped tree and leaves the queue empty. -/
theorem expression_regroup (ops : Operations σ) (e : Exp) (hroom : e.queued.length ≤ MAX_Q)
    {rest : List ExprToken} (hrest : Ends rest) (queue : List Entry) (token : Bytes)
    (h : e.regroup.eval ops user = some (v, user')) :
    Returns (fun n => expression ops n ⟨e.tokens ++ rest, queue, token, user⟩)
      (0, ⟨rest, [], v, user'⟩) := by
  obtain ⟨token₁, hreads⟩ := expr_reads e hrest token user
  obtain ⟨type, token₂, below, htype, hsettled, hgoes⟩ :=
    exp_solves ops e h rest [] token₁ (.inl rfl) (by simpa using hroom)
  have hbelow : below = [] ∨ below = [bare (.token .nullToken)] := by
    rcases hsettled with rfl | ⟨-, rfl⟩
    · exact .inl rfl
    · exact .inr rfl
  have hsolve := hgoes _ (solve_last htype hbelow)
  filter_upwards [hreads, hsolve] with n hn hs
  have hqueue : pushAll e.queued [] = .ok (e.queued.reverse ++ []) := by
    refine pushAll_eq ?_
    simpa using hroom
  have hexpr := hn []
  rw [loads, hqueue] at hexpr
  rw [expression, hexpr]
  exact hs

end

end ScOpen.Expression
