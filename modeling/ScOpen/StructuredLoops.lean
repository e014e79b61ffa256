import ScOpen.StructuredTurns

/-!
# The loops of the interpreter in a structured program
-/

namespace ScOpen

section

variable {σ : Type}

attribute [simp] Block.isWhile Block.isFor Block.isCall

@[simp] theorem whileDepth_cons (block : Block σ) (blocks : List (Block σ)) :
    whileDepth (block :: blocks) = whileDepth blocks + if block.isWhile then 1 else 0 := by
  rw [whileDepth, List.countP_cons, Nat.cast_add, Nat.cast_ite]
  rfl

@[simp] theorem forDepth_cons (block : Block σ) (blocks : List (Block σ)) :
    forDepth (block :: blocks) = forDepth blocks + if block.isFor then 1 else 0 := by
  rw [forDepth, List.countP_cons, Nat.cast_add, Nat.cast_ite]
  rfl

@[simp] theorem callDepth_cons (block : Block σ) (blocks : List (Block σ)) :
    callDepth (block :: blocks) = callDepth blocks + if block.isCall then 1 else 0 := by
  rw [callDepth, List.countP_cons, Nat.cast_add, Nat.cast_ite]
  rfl

theorem whileDepth_while (c : Expr σ) (body next : Code σ) (blocks : List (Block σ)) :
    whileDepth (.whileLoop c body next :: blocks) = whileDepth blocks + 1 :=
  whileDepth_cons _ blocks

theorem forDepth_for (h : ForHead σ) (limit step : ℤ) (body next : Code σ)
    (blocks : List (Block σ)) :
    forDepth (.forLoop h limit step body next :: blocks) = forDepth blocks + 1 :=
  forDepth_cons _ blocks

theorem callDepth_call (next : Code σ) (blocks : List (Block σ)) :
    callDepth (.call next :: blocks) = callDepth blocks + 1 :=
  callDepth_cons _ blocks

theorem whileDepth_nonneg (blocks : List (Block σ)) : 0 ≤ whileDepth blocks :=
  Int.natCast_nonneg _

theorem callDepth_nonneg (blocks : List (Block σ)) : 0 ≤ callDepth blocks :=
  Int.natCast_nonneg _

variable {lang : Language σ} {tokens : List Token}

structure SameBelow (base : Outside) (blocks : List (Block σ)) (c c' : Control) : Prop where
  returnIdx : ∀ n ≤ base.calls + callDepth blocks, c'.returnIdx n = c.returnIdx n
  forIdx : ∀ n ≤ base.fors + forDepth blocks, c'.forIdx n = c.forIdx n
  forTo : ∀ n ≤ base.fors + forDepth blocks, c'.forTo n = c.forTo n
  forStep : ∀ n ≤ base.fors + forDepth blocks, c'.forStep n = c.forStep n
  whileIdx : ∀ n ≤ base.whiles + whileDepth blocks, c'.whileIdx n = c.whileIdx n

theorem SameBelow.tail {base : Outside} {block : Block σ} {blocks : List (Block σ)}
    {c c' : Control} (h : SameBelow base (block :: blocks) c c') : SameBelow base blocks c c' := by
  have hcall := callDepth_cons block blocks
  have hfor := forDepth_cons block blocks
  have hwhile := whileDepth_cons block blocks
  constructor
  · intro n hn
    exact h.returnIdx n (by split at hcall <;> omega)
  · intro n hn
    exact h.forIdx n (by split at hfor <;> omega)
  · intro n hn
    exact h.forTo n (by split at hfor <;> omega)
  · intro n hn
    exact h.forStep n (by split at hfor <;> omega)
  · intro n hn
    exact h.whileIdx n (by split at hwhile <;> omega)

/-- The blocks do not look at the numbered variables of deeper loops and calls. -/
theorem BlocksStand.congr {c c' : Control} {base : Outside} {blocks : List (Block σ)} {i : ℕ}
    (hsame : SameBelow base blocks c c') (h : BlocksStand lang tokens c base i blocks) :
    BlocksStand lang tokens c' base i blocks := by
  induction blocks generalizing i with
  | nil => exact h
  | cons block blocks ih =>
      have htail := hsame.tail
      cases block with
      | branch rest next => exact ⟨h.1, h.2.1, ih htail h.2.2⟩
      | whileLoop e body next =>
          obtain ⟨⟨start, hstart, hcode⟩, hrest⟩ := h
          refine ⟨⟨start, ?_, hcode⟩, ih htail hrest⟩
          have hdepth := whileDepth_while e body next blocks
          rw [hsame.whileIdx _ (by omega)]
          exact hstart
      | forLoop hd limit step body next =>
          obtain ⟨⟨start, hstart, hto, hstep, hcode⟩, hrest⟩ := h
          have hle : base.fors + forDepth blocks + 1 ≤
              base.fors + forDepth (.forLoop hd limit step body next :: blocks) := by
            rw [forDepth_for]
            omega
          refine ⟨⟨start, ?_, ?_, ?_, hcode⟩, ih htail hrest⟩
          · rw [hsame.forIdx _ hle]
            exact hstart
          · rw [hsame.forTo _ hle]
            exact hto
          · rw [hsame.forStep _ hle]
            exact hstep
      | call next =>
          obtain ⟨idx, hidx, hnext, hrest⟩ := h
          refine ⟨idx, ?_, hnext, ih htail hrest⟩
          have hdepth := callDepth_call next blocks
          rw [hsame.returnIdx _ (by omega)]
          exact hidx

/-- The blocks do not look at the counters. -/
theorem BlocksStand.nests {c : Control} {base : Outside} {blocks : List (Block σ)} {i : ℕ}
    (h : BlocksStand lang tokens c base i blocks) (nest forNest whileNest : ℤ) :
    BlocksStand lang tokens
      { c with nest := nest, forNest := forNest, whileNest := whileNest } base i blocks := by
  have hsame : SameBelow base blocks c
      { c with nest := nest, forNest := forNest, whileNest := whileNest } :=
    ⟨fun _ _ => rfl, fun _ _ => rfl, fun _ _ => rfl, fun _ _ => rfl, fun _ _ => rfl⟩
  exact h.congr hsame

/-! ## While -/

/-- The scan of a false `while` ends at its `end_while`. -/
theorem whileEnd_stands {body : Code σ} {i : ℕ} (hbody : body.Stands lang tokens i)
    (hend : [mark .endWhile rfl] <+: tokens.drop (i + body.size)) :
    nestedEnd .while_ .endWhile 0 (tokens.drop i) = body.size := by
  rw [skips_whileNestedEnd.code body i hbody 0, drop_segment hend, List.singleton_append,
    nestedEnd]
  simp only [mark, reduceCtorEq, if_false, if_true, Nat.zero_add]

def whileProgram (tokens : List Token) (c : Expr σ) (body : Code σ) (i saved : ℕ)
    (control : Control) (user : σ) : Bool → Running σ
  | true => ⟨tokens, i + (c.tokens.length + 1), saved, ⟨control.inWhile i, user⟩⟩
  | false =>
      ⟨tokens, i + (c.tokens.length + 1) + body.size + 1, saved, ⟨control.overWhile i, user⟩⟩

theorem cmdWhile_stands {c : Expr σ} {body next : Code σ} {i : ℕ}
    (h : (Code.whileLoop c body next).Stands lang tokens i) {user user' : σ} {b : Bool}
    (htest : c.test user = some (b, user')) (control : Control) :
    ∃ saved', cmdWhile lang ⟨tokens, i + 1, i, ⟨control, user⟩⟩ =
      (0, whileProgram tokens c body i saved' control user' b) := by
  obtain ⟨hwhile, hc, hbody, hend, -⟩ := h
  obtain ⟨value, heval, hvalue⟩ := Expr.test_some htest
  obtain ⟨text, -, hget⟩ := getToken_segment lang hwhile i ⟨control.inWhile i, user⟩
  obtain ⟨saved', he⟩ := evaluate_stands lang hc heval i (control.inWhile i)
  have hplace : i + 1 + c.tokens.length = i + (c.tokens.length + 1) := by omega
  rw [hplace] at he
  have hstart : cmdWhile lang ⟨tokens, i + 1, i, ⟨control, user⟩⟩ =
      whileCondition lang ⟨tokens, i, i, ⟨control.inWhile i, user⟩⟩ := rfl
  rw [hstart, whileCondition, hget]
  simp only [he, ne_eq, not_true_eq_false, if_false]
  cases b with
  | true =>
      refine ⟨saved', ?_⟩
      exact if_pos (hvalue.2 rfl)
  | false =>
      have hzero : scanInt value = 0 := by
        by_contra hne
        exact absurd (hvalue.1 hne) Bool.false_ne_true
      have hscan := whileEnd_stands hbody hend
      have hread := readAfter_segment hend saved' ⟨control.inWhile i, user'⟩
      have hleft : (control.inWhile i).whileNest - 1 = control.whileNest :=
        add_sub_cancel_right _ _
      refine ⟨i + (c.tokens.length + 1) + body.size, ?_⟩
      simp only [hzero, not_true_eq_false, if_false, Running.ahead, hscan, hread, mark,
        reduceCtorEq, whileBreak, Running.setControl, hleft]
      rfl

theorem turn_while {c : Expr σ} {body next : Code σ} {i : ℕ}
    (h : (Code.whileLoop c body next).Stands lang tokens i) {user user' : σ} {b : Bool}
    (htest : c.test user = some (b, user')) (saved : ℕ) (control : Control) :
    ∃ saved', turn lang ⟨tokens, i, saved, ⟨control, user⟩⟩ =
      ⟨some (i, .while_), .go, whileProgram tokens c body i saved' control user' b⟩ := by
  obtain ⟨saved', hcmd⟩ := cmdWhile_stands h htest control
  refine ⟨saved', turn_command lang .while_ h.1 rfl rfl ?_⟩
  simp only [command, hcmd, noWait]

/-- `end_while` goes back to the `while` that its number has. -/
theorem turn_endWhile (lang : Language σ) {control : Control} {i start : ℕ}
    (h : [mark .endWhile rfl] <+: tokens.drop i) (hnest : 1 ≤ control.whileNest)
    (hidx : control.whileIdx control.whileNest = some start) (saved : ℕ) (user : σ) :
    turn lang ⟨tokens, i, saved, ⟨control, user⟩⟩ = ⟨some (i, .endWhile), .go,
      ⟨tokens, start, i, ⟨{ control with whileNest := control.whileNest - 1 }, user⟩⟩⟩ := by
  apply turn_command lang .endWhile h rfl rfl
  have hcmd : cmdEndWhile ⟨tokens, i + 1, i, ⟨control, user⟩⟩ = (0,
      ⟨tokens, start, i, ⟨{ control with whileNest := control.whileNest - 1 }, user⟩⟩) := by
    simp only [cmdEndWhile, if_neg (not_lt.2 hnest), hidx]
    rfl
  simp only [command, hcmd, noWait]

theorem turn_return (lang : Language σ) {control : Control} {i idx : ℕ}
    (h : [mark .return_ rfl] <+: tokens.drop i) (hnest : 1 ≤ control.nest)
    (hidx : control.returnIdx control.nest = some idx) (saved : ℕ) (user : σ) :
    turn lang ⟨tokens, i, saved, ⟨control, user⟩⟩ = ⟨some (i, .return_), .go,
      ⟨tokens, idx, i, ⟨{ control with nest := control.nest - 1 }, user⟩⟩⟩ := by
  apply turn_command lang .return_ h rfl rfl
  have hcmd : cmdReturn ⟨tokens, i + 1, i, ⟨control, user⟩⟩ = (0,
      ⟨tokens, idx, i, ⟨{ control with nest := control.nest - 1 }, user⟩⟩) := by
    simp only [cmdReturn, if_neg (not_lt.2 hnest), hidx]
    rfl
  simp only [command, hcmd, noWait]

end

end ScOpen
