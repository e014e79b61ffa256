import ScOpen.Expression

/-!
# What evaluations do to the variables

Reading an expression leaves the variables as they are. Solving it changes them only by the
functions that are called, so what these keep is kept by every evaluation.
-/

namespace ScOpen.Expression

def Yields {α : Type} (P : α → Prop) (r : Except Stop α) : Prop := ∀ x, r = .ok x → P x

section

variable {α β : Type} {P : α → Prop} {Q : β → Prop}

theorem Yields.ok {x : α} (h : P x) : Yields P (.ok x) := by
  intro y hy
  cases hy
  exact h

theorem Yields.error {stop : Stop} : Yields P (.error stop) := by
  intro y hy
  cases hy

theorem Yields.bind {r : Except Stop α} {f : α → Except Stop β} (h : Yields P r)
    (hf : ∀ x, P x → Yields Q (f x)) : Yields Q (r >>= f) := by
  cases r with
  | error stop => exact .error
  | ok x => exact hf x (h x rfl)

end

section

variable {σ : Type} {P : σ → Prop} {s : Evaluation σ}

def KeepsUser (P : σ → Prop) (r : Except Stop (ℕ × Evaluation σ)) : Prop :=
  Yields (fun x => P x.2.user) r

theorem qToken_keeps (e : Entry) (hs : P s.user) :
    Yields (fun s => P s.user) (qToken e s) := by
  unfold qToken push
  split
  · exact .error
  · exact .ok hs

theorem nextToken_keeps (hs : P s.user) : P (nextToken s).2.user := by
  unfold nextToken
  split
  · exact hs
  · exact hs

theorem dqToken_keeps (hs : P s.user) : P (dqToken s).2.user := by
  unfold dqToken
  split
  · exact hs
  · exact hs

theorem qToken_last (e : Entry) (iret : ℕ) (hs : P s.user) :
    KeepsUser P (do return (iret, ← qToken e s)) :=
  (qToken_keeps e hs).bind fun _ hs' => .ok hs'

/-! ## Reading -/

structure ReadingKeeps (P : σ → Prop) (n : ℕ) : Prop where
  expr : ∀ s, P s.user → KeepsUser P (expr n s)
  exprLoop : ∀ s, P s.user → KeepsUser P (exprLoop n s)
  term : ∀ s, P s.user → KeepsUser P (term n s)
  func : ∀ s, P s.user → KeepsUser P (func n s)
  funcLoop : ∀ s, P s.user → KeepsUser P (funcLoop n s)

theorem ReadingKeeps.expr_succ {n : ℕ} (h : ReadingKeeps P n) (s : Evaluation σ) (hs : P s.user) :
    KeepsUser P (Expression.expr (n + 1) s) := by
  rw [Expression.expr]
  refine (h.term s hs).bind ?_
  rintro ⟨iret, s'⟩ hs'
  dsimp only
  split
  · exact .ok hs'
  · exact h.exprLoop s' hs'

theorem ReadingKeeps.exprLoop_succ {n : ℕ} (h : ReadingKeeps P n) (s : Evaluation σ)
    (hs : P s.user) : KeepsUser P (Expression.exprLoop (n + 1) s) := by
  have hnext := nextToken_keeps hs
  rw [Expression.exprLoop]
  generalize nextToken s = r at hnext ⊢
  obtain ⟨type, s'⟩ := r
  dsimp only at hnext ⊢
  split
  · refine (qToken_keeps _ hnext).bind fun s'' hs'' => (h.term s'' hs'').bind ?_
    rintro ⟨iret, t⟩ ht
    dsimp only
    split
    · exact .ok ht
    · exact h.exprLoop t ht
  · exact .ok hnext

theorem ReadingKeeps.term_succ {n : ℕ} (h : ReadingKeeps P n) (s : Evaluation σ) (hs : P s.user) :
    KeepsUser P (Expression.term (n + 1) s) := by
  have hnext := nextToken_keeps hs
  rw [Expression.term]
  generalize nextToken s = r at hnext ⊢
  obtain ⟨type, s'⟩ := r
  dsimp only at hnext ⊢
  have hunary : ∀ e, KeepsUser P
      (qToken e s' >>= fun t => Expression.term n t >>= fun x => pure (0, x.2)) := by
    intro e
    exact (qToken_keeps e hnext).bind fun t ht => (h.term t ht).bind fun x hx => .ok hx
  split
  · exact (qToken_keeps _ hnext).bind fun t ht => h.func t ht
  · exact qToken_last _ 0 hnext
  · exact qToken_last _ 0 hnext
  · exact qToken_last _ 0 hnext
  · exact qToken_last _ 0 hnext
  · exact qToken_last _ 0 hnext
  · exact hunary _
  · exact hunary _
  · exact hunary _
  · refine (qToken_keeps _ hnext).bind fun t ht => (h.expr t ht).bind ?_
    rintro ⟨iret, u⟩ hu
    dsimp only
    split
    · exact .ok hu
    · have hclose := nextToken_keeps hu
      split
      · exact qToken_last _ 0 hclose
      · exact .ok hclose
  · exact .ok hnext

theorem ReadingKeeps.func_succ {n : ℕ} (h : ReadingKeeps P n) (s : Evaluation σ) (hs : P s.user) :
    KeepsUser P (Expression.func (n + 1) s) := by
  have hnext := nextToken_keeps hs
  rw [Expression.func]
  generalize nextToken s = r at hnext ⊢
  obtain ⟨type, s'⟩ := r
  dsimp only at hnext ⊢
  split
  · have hclose := nextToken_keeps hnext
    split
    · exact qToken_last _ 0 hclose
    · refine (h.expr { (nextToken s').2 with ahead := s'.ahead } hclose).bind ?_
      rintro ⟨iret, t⟩ ht
      dsimp only
      split
      · exact .ok ht
      · exact h.funcLoop t ht
  · exact .ok hnext

theorem ReadingKeeps.funcLoop_succ {n : ℕ} (h : ReadingKeeps P n) (s : Evaluation σ)
    (hs : P s.user) : KeepsUser P (Expression.funcLoop (n + 1) s) := by
  have hnext := nextToken_keeps hs
  rw [Expression.funcLoop]
  generalize nextToken s = r at hnext ⊢
  obtain ⟨type, s'⟩ := r
  dsimp only at hnext ⊢
  split
  · exact qToken_last _ 0 hnext
  · split
    · refine (qToken_keeps _ hnext).bind fun t ht => (h.expr t ht).bind ?_
      rintro ⟨iret, u⟩ hu
      dsimp only
      split
      · exact .ok hu
      · exact h.funcLoop u hu
    · exact .ok hnext

theorem reading_keeps (P : σ → Prop) (n : ℕ) : ReadingKeeps P n := by
  induction n with
  | zero =>
      exact ⟨fun _ _ => .error, fun _ _ => .error, fun _ _ => .error, fun _ _ => .error,
        fun _ _ => .error⟩
  | succ n ih =>
      exact ⟨ih.expr_succ, ih.exprLoop_succ, ih.term_succ, ih.func_succ, ih.funcLoop_succ⟩

end

/-! ## Solving -/

section

variable {σ : Type} {P : σ → Prop} {ops : Operations σ} {s : Evaluation σ}

theorem takeUnary_keeps (arg : Entry) (hs : P s.user) :
    Yields (fun x => P x.2.2.user) (takeUnary ops arg s) := by
  have hop := dqToken_keeps hs
  unfold takeUnary
  generalize dqToken s = r at hop ⊢
  obtain ⟨op, s'⟩ := r
  dsimp only at hop ⊢
  split
  · split
    · exact .ok hop
    · exact .ok hop
  · split
    · exact .ok hop
    · exact .ok hop
  · exact .ok hop
  · cases hq : qToken op s' with
    | error stop => exact .error
    | ok t => exact .ok (qToken_keeps op hop t hq)

structure SolvingKeeps (ops : Operations σ) (P : σ → Prop) (n : ℕ) : Prop where
  solve : ∀ s, P s.user → KeepsUser P (solve ops n s)
  solveArg : ∀ arg s, P s.user → KeepsUser P (solveArg ops n arg s)
  firstArg : ∀ arg s, P s.user → Yields (fun x => P x.2.2.user) (firstArg ops n arg s)
  secondArg : ∀ arg s, P s.user → Yields (fun x => P x.2.2.user) (secondArg ops n arg s)
  solveFunction : ∀ s, P s.user → KeepsUser P (solveFunction ops n s)
  functionArgs : ∀ i a b c s, P s.user → KeepsUser P (functionArgs ops n i a b c s)

theorem SolvingKeeps.solve_succ {n : ℕ} (h : SolvingKeeps ops P n) (s : Evaluation σ)
    (hs : P s.user) : KeepsUser P (Expression.solve ops (n + 1) s) := by
  have harg := dqToken_keeps hs
  rw [Expression.solve]
  split
  · exact .ok hs
  · refine (h.firstArg _ _ harg).bind ?_
    rintro ⟨iret, arg, t⟩ ht
    dsimp only
    split
    · exact .ok ht
    · exact h.solveArg arg t ht

theorem SolvingKeeps.solveArg_succ {n : ℕ} (h : SolvingKeeps ops P n) (arg : Entry)
    (s : Evaluation σ) (hs : P s.user) :
    KeepsUser P (Expression.solveArg ops (n + 1) arg s) := by
  have hop := dqToken_keeps hs
  rw [Expression.solveArg]
  generalize dqToken s = r at hop ⊢
  obtain ⟨op, s'⟩ := r
  dsimp only at hop ⊢
  have htoken : ∀ token, P ({ s' with token := token } : Evaluation σ).user := fun _ => hop
  split
  · exact h.solve _ hop
  · exact qToken_last _ 0 hop
  · exact (qToken_keeps _ hop).bind fun t ht => qToken_last _ 0 ht
  · exact (qToken_keeps _ hop).bind fun t ht => qToken_last _ 0 ht
  · split
    · exact .ok hop
    · exact (qToken_keeps _ (htoken _)).bind fun t ht => h.solve t ht
  · split
    · exact .ok hop
    · exact (qToken_keeps _ hop).bind fun t ht => h.solve t ht
  · exact (qToken_keeps _ hop).bind fun t ht => h.solve t ht
  · have harg := dqToken_keeps hop
    generalize dqToken s' = r' at harg ⊢
    obtain ⟨arg2, t⟩ := r'
    dsimp only at harg ⊢
    split
    · exact h.solve t harg
    · refine (h.secondArg arg2 t harg).bind ?_
      rintro ⟨iret, arg2, u⟩ hu
      dsimp only
      split
      · exact .ok hu
      · refine (takeUnary_keeps arg2 hu).bind ?_
        rintro ⟨iret, arg2, v⟩ hv
        dsimp only
        have htoken' : ∀ token, P ({ v with token := token } : Evaluation σ).user := fun _ => hv
        split
        · exact .ok hv
        · split
          · exact .ok hv
          · exact (qToken_keeps _ (htoken' _)).bind fun w hw => h.solve w hw

theorem SolvingKeeps.firstArg_succ {n : ℕ} (h : SolvingKeeps ops P n) (arg : Entry)
    (s : Evaluation σ) (hs : P s.user) :
    Yields (fun x => P x.2.2.user) (Expression.firstArg ops (n + 1) arg s) := by
  rw [Expression.firstArg]
  split
  · refine (h.solve s hs).bind ?_
    rintro ⟨iret, t⟩ ht
    dsimp only
    split
    · exact .ok ht
    · exact .ok (dqToken_keeps ht)
  · split
    · refine (h.solveFunction s hs).bind ?_
      rintro ⟨iret, t⟩ ht
      dsimp only
      split
      · exact .ok ht
      · exact .ok (dqToken_keeps ht)
    · exact .ok hs

theorem SolvingKeeps.secondArg_succ {n : ℕ} (h : SolvingKeeps ops P n) (arg : Entry)
    (s : Evaluation σ) (hs : P s.user) :
    Yields (fun x => P x.2.2.user) (Expression.secondArg ops (n + 1) arg s) := by
  have hrest : ∀ (iret : ℕ) (arg : Entry) (t : Evaluation σ), P t.user →
      Yields (fun x : ℕ × Entry × Evaluation σ => P x.2.2.user)
        (if iret ≠ 0 then return (iret, arg, t)
        else if arg.type = .token .closeParen then
          Expression.solve ops n t >>= fun x =>
            if x.1 ≠ 0 then pure (x.1, arg, x.2) else pure (0, dqToken x.2)
        else return (0, arg, t)) := by
    intro iret arg t ht
    split
    · exact .ok ht
    · split
      · refine (h.solve t ht).bind fun x hx => ?_
        split
        · exact .ok hx
        · exact .ok (dqToken_keeps hx)
      · exact .ok ht
  rw [Expression.secondArg]
  split
  · refine (h.solveFunction s hs).bind ?_
    rintro ⟨iret, t⟩ ht
    dsimp only
    split
    · exact hrest iret arg t ht
    · exact hrest 0 _ _ (dqToken_keeps ht)
  · exact hrest 0 arg s hs

theorem SolvingKeeps.functionArgs_succ {n : ℕ} (h : SolvingKeeps ops P n)
    (hfunction : ∀ place i a b c user, P user → P (ops.function place i a b c user).user)
    (i : ℕ) (a b c : Bytes) (s : Evaluation σ) (hs : P s.user) :
    KeepsUser P (Expression.functionArgs ops (n + 1) i a b c s) := by
  have he := dqToken_keeps hs
  rw [Expression.functionArgs]
  generalize dqToken s = r at he ⊢
  obtain ⟨e, s'⟩ := r
  dsimp only at he ⊢
  split
  · rename_i place htype
    have hcall := hfunction place i a b c s'.user he
    split
    · exact .ok hcall
    · exact qToken_last _ _ hcall
  · exact h.functionArgs _ _ _ _ _ he
  · have htoken : P ({ s' with token := e.text } : Evaluation σ).user := he
    refine (qToken_keeps e htoken).bind fun t ht => (h.solve t ht).bind ?_
    rintro ⟨iret, u⟩ hu
    dsimp only
    split
    · exact .ok hu
    · have hvalue := dqToken_keeps hu
      split
      · exact h.functionArgs _ _ _ _ _ hvalue
      · exact h.functionArgs _ _ _ _ _ hvalue
      · exact h.functionArgs _ _ _ _ _ hvalue
      · exact .ok hvalue

theorem solving_keeps
    (hfunction : ∀ place i a b c user, P user → P (ops.function place i a b c user).user)
    (n : ℕ) : SolvingKeeps ops P n := by
  induction n with
  | zero =>
      exact ⟨fun _ _ => .error, fun _ _ _ => .error, fun _ _ _ => .error, fun _ _ _ => .error,
        fun _ _ => .error, fun _ _ _ _ _ _ => .error⟩
  | succ n ih =>
      exact ⟨ih.solve_succ, ih.solveArg_succ, ih.firstArg_succ, ih.secondArg_succ,
        fun s hs => ih.functionArgs 0 [] [] [] s hs, ih.functionArgs_succ hfunction⟩

/-- An evaluation keeps what the functions keep. -/
theorem expression_keeps
    (hfunction : ∀ place i a b c user, P user → P (ops.function place i a b c user).user)
    (n : ℕ) (hs : P s.user) : KeepsUser P (expression ops n s) := by
  rw [expression]
  refine ((reading_keeps P n).expr { s with queue := [] } hs).bind ?_
  rintro ⟨iret, t⟩ ht
  dsimp only
  split
  · exact .ok ht
  · exact (solving_keeps hfunction n).solve t ht

end

end ScOpen.Expression
