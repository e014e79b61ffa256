import ScOpen.ExpressionTrees

/-!
# Solving the queue

The queue of a tree is solved to the value of a tree, but not of the same one: when the left term
of an operator has more than one unary operator, only the innermost of them stays with it, and the
others come to stand in front of the whole rest.
-/

namespace ScOpen.Expression

open Filter

section

variable {σ : Type} (ops : Operations σ)

/-! ## The value of a tree -/

def Operations.unary (op : UnaryOp) (v : Bytes) : Option Bytes :=
  match op with
  | .minus => ops.unaryMinus v
  | .plus => some v
  | .onesComplement => ops.onesComplement v

def Operations.call (place : ℕ) (vs : List Bytes) (user : σ) : Option (Bytes × σ) :=
  let r := ops.function place (vs.length - 1) (vs.getD 0 []) (vs.getD 1 []) (vs.getD 2 []) user
  if vs.length ≤ 3 ∧ r.iret = 0 ∧ r.pushed.isSome then some (r.token, r.user) else none

mutual

/-- The value of a term and the variables after it; `none` where an operator or a function has no
value. What stands on the right is evaluated first. -/
def Term.eval : Term → σ → Option (Bytes × σ)
  | .operand o, user => some (o.token.text, user)
  | .unary op t, user => do
      let (v, user) ← t.eval user
      return (← ops.unary op v, user)
  | .paren e, user => e.eval user
  | .call0 place, user => ops.call place [] user
  | .call place args, user => do
      let (vs, user) ← args.eval user
      ops.call place vs user

def Exp.eval : Exp → σ → Option (Bytes × σ)
  | .last t, user => t.eval user
  | .binary t op e, user => do
      let (v, user) ← e.eval user
      let (w, user) ← t.eval user
      return (← ops.binary (.token op.type) v w, user)

def Args.eval : Args → σ → Option (List Bytes × σ)
  | .one e, user => do
      let (v, user) ← e.eval user
      return ([v], user)
  | .cons e args, user => do
      let (vs, user) ← args.eval user
      let (v, user) ← e.eval user
      return (vs ++ [v], user)

end

end

/-! ## The tree that is solved -/

def regroupLeft (t : Term) (op : BinaryOp) (e : Exp) : Exp :=
  match t with
  | .unary u (.unary u' t) => .last (.unary u (.paren (regroupLeft (.unary u' t) op e)))
  | t => .binary t op e

mutual

def Term.regroup : Term → Term
  | .operand o => .operand o
  | .unary op t => .unary op t.regroup
  | .paren e => .paren e.regroup
  | .call0 place => .call0 place
  | .call place args => .call place args.regroup

def Exp.regroup : Exp → Exp
  | .last t => .last t.regroup
  | .binary t op e => regroupLeft t.regroup op e.regroup

def Args.regroup : Args → Args
  | .one e => .one e.regroup
  | .cons e args => .cons e.regroup args.regroup

end

theorem Term.queued_pos (t : Term) : 0 < t.queued.length := by
  cases t <;> simp [Term.queued]

theorem Exp.queued_pos (e : Exp) : 0 < e.queued.length := by
  cases e with
  | last t => exact t.queued_pos
  | binary t op e =>
      have ht := t.queued_pos
      simp only [Exp.queued, List.length_append]
      omega

/-! ## Turns of the loop -/

def Returns {α : Type} (run : ℕ → Except Stop α) (r : α) : Prop :=
  ∀ᶠ n in atTop, run n = .ok r

theorem Returns.succ {α : Type} {run : ℕ → Except Stop α} {r : α} (h : Returns run r) :
    Returns (fun n => run (n + 1)) r := (tendsto_add_atTop_nat 1).eventually h

theorem Returns.of_succ {α : Type} {run : ℕ → Except Stop α} {r : α}
    (h : Returns (fun n => run (n + 1)) r) : Returns run r := eventually_of_succ h

def value (type : TokenType) (v : Bytes) : Entry := ⟨.token type, v⟩

theorem qToken_room {σ : Type} (e : Entry) (ahead : List ExprToken) {queue : List Entry}
    (token : Bytes) (user : σ) (h : queue.length < MAX_Q) :
    qToken e ⟨ahead, queue, token, user⟩ = .ok ⟨ahead, e :: queue, token, user⟩ := by
  rw [qToken, push, if_neg (Nat.not_le.2 h)]
  rfl

section

variable {σ : Type} (ops : Operations σ)

def Goes (s s' : Evaluation σ) : Prop :=
  ∀ r, Returns (fun n => solve ops n s') r → Returns (fun n => solve ops n s) r

variable {ops}

theorem Goes.trans {s₁ s₂ s₃ : Evaluation σ} (h : Goes ops s₁ s₂) (h' : Goes ops s₂ s₃) :
    Goes ops s₁ s₃ := fun r hr => h r (h' r hr)

variable {ahead : List ExprToken} {below queue : List Entry} {token token' v w : Bytes}
  {user user' : σ} {type : TokenType}

theorem firstArg_value (ops : Operations σ) (v : Bytes) (htype : isOperand type = true) (n : ℕ)
    (s : Evaluation σ) :
    firstArg ops (n + 1) (value type v) s = .ok (0, value type v, s) := by
  cases type <;> first | rfl | cases htype

theorem secondArg_value (ops : Operations σ) (v : Bytes) (htype : isOperand type = true) (n : ℕ)
    (s : Evaluation σ) :
    secondArg ops (n + 1) (value type v) s = .ok (0, value type v, s) := by
  cases type <;> first | rfl | cases htype

/-- A turn with a value as its first argument. -/
theorem solve_value (htype : isOperand type = true) (n : ℕ) :
    solve ops (n + 2) ⟨ahead, value type v :: queue, token, user⟩ =
      solveArg ops (n + 1) (value type v) ⟨ahead, queue, token, user⟩ := by
  have hfirst := firstArg_value ops v htype n ⟨ahead, queue, token, user⟩
  rw [solve]
  simp only [dqToken, List.isEmpty_cons, Bool.false_eq_true, if_false, hfirst]
  rfl

theorem returns_of_solveArg (htype : isOperand type = true) {r : ℕ × Evaluation σ}
    (h : Returns (fun n => solveArg ops n (value type v) ⟨ahead, queue, token, user⟩) r) :
    Returns (fun n => solve ops n ⟨ahead, value type v :: queue, token, user⟩) r := by
  refine Returns.of_succ (Returns.of_succ ?_)
  filter_upwards [h.succ] with n hn
  rw [solve_value htype, hn]

/-- The argument that `solve()` takes first is as good as its value. -/
theorem goes_of_firstArg {x : Entry} {xs : List Entry} (htype : isOperand type = true)
    (h : Returns (fun n => firstArg ops n x ⟨ahead, xs, token, user⟩)
      (0, value type v, ⟨ahead, queue, token', user'⟩)) :
    Goes ops ⟨ahead, x :: xs, token, user⟩ ⟨ahead, value type v :: queue, token', user'⟩ := by
  intro r hr
  refine Returns.of_succ (Returns.of_succ ?_)
  filter_upwards [h.succ, hr.succ.succ] with n hfirst hn
  rw [solve_value htype] at hn
  rw [solve]
  simp only [dqToken, List.isEmpty_cons, Bool.false_eq_true, if_false, hfirst]
  exact hn

/-- A unary operator in front of a value. -/
theorem goes_unary (queue : List Entry) (ahead : List ExprToken) (token : Bytes) (user : σ)
    (op : UnaryOp) (htype : isOperand type = true) (hw : ops.unary op v = some w)
    (hroom : queue.length < MAX_Q) :
    ∃ token', Goes ops ⟨ahead, value type v :: bare (.token op.queued) :: queue, token, user⟩
      ⟨ahead, value type w :: queue, token', user⟩ := by
  cases op with
  | minus =>
      have hminus : ops.unaryMinus v = some w := hw
      refine ⟨w, fun r hr => returns_of_solveArg htype (Returns.of_succ ?_)⟩
      filter_upwards [hr] with n hn
      have hpush := qToken_room (value type w) ahead w user hroom
      simp only [solveArg, dqToken, bare, UnaryOp.queued, value, hminus]
      rw [← value, hpush]
      exact hn
  | plus =>
      have hv : v = w := Option.some.inj hw
      refine ⟨token, fun r hr => returns_of_solveArg htype (Returns.of_succ ?_)⟩
      filter_upwards [hr] with n hn
      have hpush := qToken_room (value type w) ahead token user hroom
      simp only [solveArg, dqToken, bare, UnaryOp.queued, hv, hpush]
      exact hn
  | onesComplement =>
      have hcomplement : ops.onesComplement v = some w := hw
      refine ⟨token, fun r hr => returns_of_solveArg htype (Returns.of_succ ?_)⟩
      filter_upwards [hr] with n hn
      have hpush := qToken_room (value type w) ahead token user hroom
      simp only [solveArg, dqToken, bare, UnaryOp.queued, value, hcomplement]
      rw [← value, hpush]
      exact hn

/-! ## The end of an expression in the queue -/

/-- The last value of the whole queue. The entry below it is there once an operator has found
nothing below its left term. -/
theorem solve_last (htype : isOperand type = true)
    (hqueue : queue = [] ∨ queue = [bare (.token .nullToken)]) :
    Returns (fun n => solve ops n ⟨ahead, value type v :: queue, token, user⟩)
      (0, ⟨ahead, [], v, user⟩) := by
  refine returns_of_solveArg htype (Returns.of_succ (Returns.of_succ (.of_forall ?_)))
  intro n
  rcases hqueue with rfl | rfl <;> rfl

/-- The value of an expression in parentheses. -/
theorem solve_openParen (htype : isOperand type = true) (hroom : queue.length < MAX_Q) :
    Returns (fun n => solve ops n
        ⟨ahead, value type v :: bare (.token .openParen) :: queue, token, user⟩)
      (0, ⟨ahead, value type v :: queue, token, user⟩) := by
  refine returns_of_solveArg htype (Returns.of_succ (.of_forall ?_))
  intro n
  have hpush := qToken_room (value type v) ahead token user hroom
  simp only [solveArg, dqToken, bare, hpush]
  rfl

def isArgumentEnd : ExprType → Bool
  | .token .comma | .function _ => true
  | _ => false

/-- The value of an argument. -/
theorem solve_argument {e : ExprType} (he : isArgumentEnd e = true) (htype : isOperand type = true)
    (hroom : queue.length + 1 < MAX_Q) :
    Returns (fun n => solve ops n ⟨ahead, value type v :: bare e :: queue, token, user⟩)
      (0, ⟨ahead, value type v :: bare e :: queue, token, user⟩) := by
  refine returns_of_solveArg htype (Returns.of_succ (.of_forall ?_))
  intro n
  have hpush := qToken_room (bare e) ahead token user (Nat.lt_of_succ_lt hroom)
  have hpush' : qToken (value type v) ⟨ahead, bare e :: queue, token, user⟩ =
      .ok ⟨ahead, value type v :: bare e :: queue, token, user⟩ :=
    qToken_room (value type v) ahead token user hroom
  have hturn : solveArg ops (n + 1) (value type v) ⟨ahead, bare e :: queue, token, user⟩ =
      do return (0, ← qToken (value type v) (← qToken (bare e) ⟨ahead, queue, token, user⟩)) := by
    cases e with
    | token type => cases type <;> first | rfl | cases he
    | function place => rfl
    | functionEnd => cases he
  refine hturn.trans ?_
  rw [hpush]
  exact congrArg (· >>= fun s => pure (0, s)) hpush'

/-! ## Terms -/

def Term.base : Term → Term
  | .unary _ t => t.base
  | t => t

theorem Term.base_ne_unary (t t' : Term) (op : UnaryOp) : t.base ≠ .unary op t' := by
  cases t with
  | unary op' t => exact t.base_ne_unary t' op
  | operand o => exact fun h => by cases h
  | paren e => exact fun h => by cases h
  | call0 place => exact fun h => by cases h
  | call place args => exact fun h => by cases h
termination_by structural t

def Resolves (ops : Operations σ) (es : List Entry) (v : Bytes) (user user' : σ) : Prop :=
  ∃ x xs, es.reverse = x :: xs ∧ x.type ≠ .token .nullToken ∧
    ∀ ahead below token, es.length + below.length ≤ MAX_Q →
      ∃ type token', isOperand type = true ∧
        Returns (fun n => firstArg ops n x ⟨ahead, xs ++ below, token, user⟩)
          (0, value type v, ⟨ahead, below, token', user'⟩) ∧
        Returns (fun n => secondArg ops n x ⟨ahead, xs ++ below, token, user⟩)
          (0, value type v, ⟨ahead, below, token', user'⟩)

theorem resolves_operand (ops : Operations σ) (o : Operand) (user : σ) :
    Resolves ops (Term.operand o).queued o.token.text user user := by
  refine ⟨value o.token.type o.token.text, [], rfl, ?_, ?_⟩
  · intro h
    have hnull : o.token.type = .nullToken := ExprType.token.inj h
    have ho := o.isOperand
    rw [hnull] at ho
    cases ho
  · intro ahead below token hroom
    exact ⟨o.token.type, token, o.isOperand,
      .of_succ (.of_forall fun n => firstArg_value ops _ o.isOperand n _),
      .of_succ (.of_forall fun n => secondArg_value ops _ o.isOperand n _)⟩

def Leaves (run : ℕ → Evaluation σ → Except Stop (ℕ × Evaluation σ)) (es : List Entry) (v : Bytes)
    (user user' : σ) : Prop :=
  ∀ ahead below token, es.length + below.length ≤ MAX_Q →
    ∃ type token', isOperand type = true ∧
      Returns (fun n => run n ⟨ahead, es.reverse ++ below, token, user⟩)
        (0, ⟨ahead, value type v :: below, token', user'⟩)

theorem resolves_paren {es : List Entry} (h : Leaves (solve ops) es v user user') :
    Resolves ops (es ++ [bare (.token .closeParen)]) v user user' := by
  refine ⟨bare (.token .closeParen), es.reverse, by simp, by simp [bare], ?_⟩
  intro ahead below token hroom
  rw [List.length_append, List.length_singleton] at hroom
  obtain ⟨type, token', htype, h⟩ := h ahead below token (by omega)
  refine ⟨type, token', htype, Returns.of_succ ?_, Returns.of_succ ?_⟩
  · filter_upwards [h] with n hn
    simp only [firstArg, bare, if_true, hn]
    rfl
  · filter_upwards [h] with n hn
    have hturn : secondArg ops (n + 1) (bare (.token .closeParen))
          ⟨ahead, es.reverse ++ below, token, user⟩ =
        solve ops n ⟨ahead, es.reverse ++ below, token, user⟩ >>= fun r =>
          if r.1 ≠ 0 then pure (r.1, bare (.token .closeParen), r.2)
          else pure (0, dqToken r.2) := rfl
    rw [hturn, hn]
    rfl

theorem resolves_call {es : List Entry} (h : Leaves (solveFunction ops) es v user user') :
    Resolves ops (es ++ [bare .functionEnd]) v user user' := by
  refine ⟨bare .functionEnd, es.reverse, by simp, by simp [bare], ?_⟩
  intro ahead below token hroom
  rw [List.length_append, List.length_singleton] at hroom
  obtain ⟨type, token', htype, h⟩ := h ahead below token (by omega)
  refine ⟨type, token', htype, Returns.of_succ ?_, Returns.of_succ ?_⟩
  · filter_upwards [h] with n hn
    simp only [firstArg, bare, reduceCtorEq, if_false, if_true, hn]
    rfl
  · filter_upwards [h] with n hn
    have hparen : ExprType.token type ≠ .token .closeParen := by
      intro heq
      rw [ExprType.token.inj heq] at htype
      cases htype
    simp only [secondArg, bare, if_true, hn]
    exact if_neg hparen

def Solves (ops : Operations σ) (es : List Entry) (v : Bytes) (user user' : σ) : Prop :=
  ∀ ahead below token, es.length + below.length ≤ MAX_Q →
    ∃ type token', isOperand type = true ∧
      Goes ops ⟨ahead, es.reverse ++ below, token, user⟩
        ⟨ahead, value type v :: below, token', user'⟩

theorem Resolves.solves {es : List Entry} (h : Resolves ops es v user user') :
    Solves ops es v user user' := by
  obtain ⟨x, xs, hes, -, h⟩ := h
  intro ahead below token hroom
  obtain ⟨type, token', htype, hfirst, -⟩ := h ahead below token hroom
  rw [hes]
  exact ⟨type, token', htype, goes_of_firstArg htype hfirst⟩

theorem Term.eval_unary {op : UnaryOp} {t : Term} {w : Bytes} {user user' : σ}
    (h : (Term.unary op t).eval ops user = some (w, user')) :
    ∃ v, t.eval ops user = some (v, user') ∧ ops.unary op v = some w := by
  obtain ⟨⟨v, user₁⟩, ht, h⟩ := Option.bind_eq_some_iff.1 h
  obtain ⟨w', hw, h⟩ := Option.bind_eq_some_iff.1 h
  cases h
  exact ⟨v, ht, hw⟩

def Term.BaseResolves (ops : Operations σ) (t : Term) : Prop :=
  ∀ v user user', t.base.regroup.eval ops user = some (v, user') →
    Resolves ops t.base.queued v user user'

/-- A term is solved from its base on, one unary operator after another. -/
theorem term_solves (t : Term) (hbase : t.BaseResolves ops)
    {v : Bytes} {user user' : σ} (h : t.regroup.eval ops user = some (v, user')) :
    Solves ops t.queued v user user' := by
  cases t with
  | unary op t =>
      obtain ⟨w, hw, hv⟩ := Term.eval_unary h
      have ht := term_solves t hbase hw
      intro ahead below token hroom
      have hlength : (Term.unary op t).queued.length = t.queued.length + 1 := rfl
      have hpos := t.queued_pos
      obtain ⟨type, token₁, htype, hgoes⟩ :=
        ht ahead (bare (.token op.queued) :: below) token (by rw [List.length_cons]; omega)
      obtain ⟨token₂, hunary⟩ :=
        goes_unary below ahead token₁ user' op htype hv (by omega)
      refine ⟨type, token₂, htype, ?_⟩
      have hqueue : (Term.unary op t).queued.reverse ++ below =
          t.queued.reverse ++ bare (.token op.queued) :: below := by
        simp [Term.queued]
      rw [hqueue]
      exact hgoes.trans hunary
  | operand o => exact (hbase _ _ _ h).solves
  | paren e => exact (hbase _ _ _ h).solves
  | call0 place => exact (hbase _ _ _ h).solves
  | call place args => exact (hbase _ _ _ h).solves
termination_by structural t

/-! ## Operators between terms -/

def isBelow : ExprType → Bool
  | .token .openParen | .token .comma | .function _ => true
  | .token type => isBinary type
  | .functionEnd => false

def BelowExp (below : List Entry) : Prop :=
  below = [] ∨ ∃ e rest, below = bare e :: rest ∧ isBelow e = true

def Settled (below below' : List Entry) : Prop :=
  below' = below ∨ below = [] ∧ below' = [bare (.token .nullToken)]

theorem Settled.cons {e : Entry} {below below' : List Entry} (h : Settled (e :: below) below') :
    below' = e :: below := by
  rcases h with h | ⟨h, -⟩
  · exact h
  · cases h

theorem takeUnary_unary (type : TokenType) (ahead : List ExprToken) (queue : List Entry)
    (token : Bytes) (user : σ) (op : UnaryOp) (hw : ops.unary op v = some w) :
    ∃ token', takeUnary ops (value type v) ⟨ahead, bare (.token op.queued) :: queue, token, user⟩ =
      .ok (0, value type w, ⟨ahead, queue, token', user⟩) := by
  cases op with
  | minus =>
      have hminus : ops.unaryMinus v = some w := hw
      refine ⟨w, ?_⟩
      simp only [takeUnary, dqToken, bare, UnaryOp.queued, value, hminus]
  | plus =>
      have hv : v = w := Option.some.inj hw
      refine ⟨token, ?_⟩
      simp only [takeUnary, dqToken, bare, UnaryOp.queued, hv]
  | onesComplement =>
      have hcomplement : ops.onesComplement v = some w := hw
      refine ⟨token, ?_⟩
      simp only [takeUnary, dqToken, bare, UnaryOp.queued, value, hcomplement]

theorem takeUnary_below (ops : Operations σ) (ahead : List ExprToken) (token : Bytes) (user : σ)
    (arg : Entry) (hbelow : BelowExp queue) (hroom : queue.length < MAX_Q) :
    ∃ queue', Settled queue queue' ∧
      takeUnary ops arg ⟨ahead, queue, token, user⟩ = .ok (0, arg, ⟨ahead, queue', token, user⟩) := by
  rcases hbelow with rfl | ⟨e, rest, rfl, he⟩
  · exact ⟨[bare (.token .nullToken)], .inr ⟨rfl, rfl⟩, rfl⟩
  · refine ⟨bare e :: rest, .inl rfl, ?_⟩
    have hpush := qToken_room (bare e) ahead token user (Nat.lt_of_succ_lt hroom)
    have hturn : takeUnary ops arg ⟨ahead, bare e :: rest, token, user⟩ =
        (qToken (bare e) ⟨ahead, rest, token, user⟩).map fun s => (0, arg, s) := by
      cases e with
      | token type => cases type <;> first | rfl | cases he
      | function place => rfl
      | functionEnd => rfl
    rw [hturn, hpush]
    rfl

/-- A turn with an operator between two terms. -/
theorem solveArg_binary (arg1 : Entry) (token : Bytes) (op : BinaryOp) {n : ℕ}
    {x arg2 arg2' : Entry} {xs : List Entry}
    {s s' : Evaluation σ} (hx : x.type ≠ .token .nullToken)
    (hsecond : secondArg ops n x ⟨ahead, xs, token, user⟩ = .ok (0, arg2, s))
    (htake : takeUnary ops arg2 s = .ok (0, arg2', s'))
    (hw : ops.binary (.token op.type) arg1.text arg2'.text = some w) :
    solveArg ops (n + 1) arg1 ⟨ahead, bare (.token op.type) :: x :: xs, token, user⟩ =
      qToken ⟨arg1.type, w⟩ { s' with token := w } >>= solve ops n := by
  obtain ⟨type, htype⟩ := op
  cases type <;> first
    | (simp only [solveArg, dqToken, bare, if_neg hx, hsecond, Bind.bind, Except.bind, ne_eq,
        not_true_eq_false, if_false, htake, hw]; done)
    | cases htype

theorem goes_binary (op : BinaryOp) {x arg2 arg2' : Entry} {xs : List Entry} {s : Evaluation σ}
    (htype : isOperand type = true) (hx : x.type ≠ .token .nullToken)
    (hsecond : Returns (fun n => secondArg ops n x ⟨ahead, xs, token, user⟩) (0, arg2, s))
    (htake : takeUnary ops arg2 s = .ok (0, arg2', ⟨ahead, queue, token', user'⟩))
    (hw : ops.binary (.token op.type) v arg2'.text = some w) (hroom : queue.length < MAX_Q) :
    Goes ops ⟨ahead, value type v :: bare (.token op.type) :: x :: xs, token, user⟩
      ⟨ahead, value type w :: queue, w, user'⟩ := by
  refine fun r hr => returns_of_solveArg htype (Returns.of_succ ?_)
  filter_upwards [hsecond, hr] with n hn hr
  have hturn := solveArg_binary (value type v) token op hx hn htake hw
  have hpush := qToken_room (value type w) ahead w user' hroom
  refine hturn.trans ?_
  rw [value] at hpush
  rw [value, hpush]
  exact hr

theorem Exp.eval_binary {t : Term} {op : BinaryOp} {e : Exp} {v w : Bytes}
    {user₀ user₁ user' : σ} (he : e.eval ops user₀ = some (v, user₁))
    (h : (Exp.binary t op e).eval ops user₀ = some (w, user')) :
    ∃ v', t.eval ops user₁ = some (v', user') ∧ ops.binary (.token op.type) v v' = some w := by
  obtain ⟨⟨v₁, user₂⟩, he', h⟩ := Option.bind_eq_some_iff.1 h
  rw [he] at he'
  cases he'
  obtain ⟨⟨v', user₃⟩, ht, h⟩ := Option.bind_eq_some_iff.1 h
  obtain ⟨w', hw, h⟩ := Option.bind_eq_some_iff.1 h
  cases h
  exact ⟨v', ht, hw⟩

theorem left_base (queue : List Entry) (ahead : List ExprToken) (token : Bytes) {es : List Entry}
    {v' : Bytes} (h : Resolves ops es v' user user') (op : BinaryOp)
    (hw : ops.binary (.token op.type) v v' = some w) (htype : isOperand type = true)
    (hroom : es.length + 2 + queue.length ≤ MAX_Q) (hbelow : BelowExp queue) :
    ∃ token' queue', Settled queue queue' ∧ Goes ops
      ⟨ahead, value type v :: bare (.token op.type) :: (es.reverse ++ queue), token, user⟩
      ⟨ahead, value type w :: queue', token', user'⟩ := by
  obtain ⟨x, xs, hes, hx, h⟩ := h
  obtain ⟨type', token', -, -, hsecond⟩ := h ahead queue token (by omega)
  obtain ⟨queue', hsettled, htake⟩ := takeUnary_below ops ahead token' user'
    (value type' v') hbelow (by omega)
  have hroom' : queue'.length < MAX_Q := by
    rcases hsettled with rfl | ⟨-, rfl⟩
    · omega
    · exact Nat.lt_of_sub_eq_succ rfl
  rw [hes]
  exact ⟨w, queue', hsettled, goes_binary op htype hx hsecond htake hw hroom'⟩

theorem left_unary (queue : List Entry) (ahead : List ExprToken) (token : Bytes) {es : List Entry}
    {v' v'' : Bytes} (h : Resolves ops es v' user user') (u : UnaryOp)
    (hu : ops.unary u v' = some v'') (op : BinaryOp)
    (hw : ops.binary (.token op.type) v v'' = some w) (htype : isOperand type = true)
    (hroom : es.length + 2 + queue.length < MAX_Q) :
    ∃ token', Goes ops
      ⟨ahead, value type v :: bare (.token op.type) ::
        (es.reverse ++ bare (.token u.queued) :: queue), token, user⟩
      ⟨ahead, value type w :: queue, token', user'⟩ := by
  obtain ⟨x, xs, hes, hx, h⟩ := h
  obtain ⟨type', token', -, -, hsecond⟩ := h ahead (bare (.token u.queued) :: queue) token (by
    rw [List.length_cons]
    omega)
  obtain ⟨token'', htake⟩ := takeUnary_unary type' ahead queue token' user' u hu
  rw [hes]
  exact ⟨w, goes_binary op htype hx hsecond htake hw (by omega)⟩

/-- The left term of an operator, from the value on its right on. -/
theorem left_solves (t : Term) (hbase : t.BaseResolves ops) (op : BinaryOp) (e : Exp) {v w : Bytes}
    {user₀ user₁ user' : σ} (he : e.eval ops user₀ = some (v, user₁))
    (h : (regroupLeft t.regroup op e).eval ops user₀ = some (w, user'))
    (below : List Entry) {type : TokenType} (htype : isOperand type = true)
    (hroom : t.queued.length + 2 + below.length ≤ MAX_Q)
    (hbelow : t.base = t → BelowExp below) (ahead : List ExprToken) (token : Bytes) :
    ∃ token' below', Settled below below' ∧ Goes ops
      ⟨ahead, value type v :: bare (.token op.type) :: (t.queued.reverse ++ below), token, user₁⟩
      ⟨ahead, value type w :: below', token', user'⟩ := by
  -- one unary operator stays with the term, and a second one comes to stand before the rest
  have hlast {b : Term} (hb : b.base = b) (ht : t = b)
      (hregroup : regroupLeft b.regroup op e = .binary b.regroup op e) :
      ∃ token' below', Settled below below' ∧ Goes ops
        ⟨ahead, value type v :: bare (.token op.type) :: (t.queued.reverse ++ below), token, user₁⟩
        ⟨ahead, value type w :: below', token', user'⟩ := by
    subst ht
    rw [hregroup] at h
    obtain ⟨v', hv', hw⟩ := Exp.eval_binary he h
    rw [Term.BaseResolves, hb] at hbase
    exact left_base below ahead token (hbase _ _ _ hv') op hw htype hroom (hbelow hb)
  have hone {b : Term} {u : UnaryOp} (hb : b.base = b) (ht : t = .unary u b)
      (hregroup : regroupLeft (.unary u b.regroup) op e = .binary (.unary u b.regroup) op e) :
      ∃ token' below', Settled below below' ∧ Goes ops
        ⟨ahead, value type v :: bare (.token op.type) :: (t.queued.reverse ++ below), token, user₁⟩
        ⟨ahead, value type w :: below', token', user'⟩ := by
    subst ht
    have h' : (Exp.binary (.unary u b.regroup) op e).eval ops user₀ = some (w, user') := by
      rw [← hregroup]
      exact h
    obtain ⟨v'', hv'', hw⟩ := Exp.eval_binary he h'
    obtain ⟨v', hv', hu⟩ := Term.eval_unary hv''
    have hbase' : b.BaseResolves ops := hbase
    rw [Term.BaseResolves, hb] at hbase'
    have hlength : (Term.unary u b).queued.length = b.queued.length + 1 := rfl
    obtain ⟨token', hgoes⟩ :=
      left_unary below ahead token (hbase' _ _ _ hv') u hu op hw htype (by omega)
    refine ⟨token', below, .inl rfl, ?_⟩
    simp only [Term.queued, List.reverse_cons, List.append_assoc, List.singleton_append]
    exact hgoes
  cases t with
  | operand o => exact hlast rfl rfl rfl
  | paren e => exact hlast rfl rfl rfl
  | call0 place => exact hlast rfl rfl rfl
  | call place args => exact hlast rfl rfl rfl
  | unary u t =>
      cases t with
      | operand o => exact hone rfl rfl rfl
      | paren e => exact hone rfl rfl rfl
      | call0 place => exact hone rfl rfl rfl
      | call place args => exact hone rfl rfl rfl
      | unary u' t =>
          let e' := regroupLeft (.unary u' t.regroup) op e
          have heval : (Term.unary u (.paren e')).eval ops user₀ = some (w, user') := h
          obtain ⟨w₁, hw₁, hu⟩ := Term.eval_unary heval
          have hlength : (Term.unary u (.unary u' t)).queued.length =
            (Term.unary u' t).queued.length + 1 := rfl
          have hpos := (Term.unary u' t).queued_pos
          obtain ⟨token₁, below₁, hsettled, hgoes⟩ :=
            left_solves (.unary u' t) hbase op e he hw₁ (bare (.token u.queued) :: below) htype
              (by rw [List.length_cons]; omega) (fun hb => absurd hb (Term.base_ne_unary _ _ _))
              ahead token
          rw [hsettled.cons] at hgoes
          obtain ⟨token₂, hunary⟩ := goes_unary below ahead token₁ user' u htype hu (by omega)
          refine ⟨token₂, below, .inl rfl, ?_⟩
          have hqueue : (Term.unary u (.unary u' t)).queued.reverse ++ below =
              (Term.unary u' t).queued.reverse ++ bare (.token u.queued) :: below := by
            simp [Term.queued]
          rw [hqueue]
          exact hgoes.trans hunary
termination_by structural t

end

end ScOpen.Expression
