import ScOpen.StructuredSteps

/-!
# Structured programs with `while` loops

A program of statements, `if` chains and `while` loops, with `continue` and `break_loop` inside of
the loops, runs as its tree says.
-/

namespace ScOpen

section

variable {σ : Type}

mutual

/-- There are no other loops and no calls, and a loop is left only from the inside. -/
def Code.WhilesOnly (inside : Bool) : Code σ → Prop
  | .done => True
  | .filler _ next | .statement _ next => next.WhilesOnly inside
  | .ifThen _ body rest next =>
      body.WhilesOnly inside ∧ rest.WhilesOnly inside ∧ next.WhilesOnly inside
  | .whileLoop _ body next => body.WhilesOnly true ∧ next.WhilesOnly inside
  | .continue_ next | .breakLoop next => inside = true ∧ next.WhilesOnly inside
  | .forLoop _ _ _ | .call _ _ | .return_ _ => False

def Branches.WhilesOnly (inside : Bool) : Branches σ → Prop
  | .endIf => True
  | .else_ body => body.WhilesOnly inside
  | .elseIf _ body rest => body.WhilesOnly inside ∧ rest.WhilesOnly inside

end

def insideLoop (blocks : List (Block σ)) : Bool := (innermostLoop blocks).isSome

def BlocksWhilesOnly : List (Block σ) → Prop
  | [] => True
  | .branch rest next :: blocks =>
      rest.WhilesOnly (insideLoop blocks) ∧ next.WhilesOnly (insideLoop blocks) ∧
        BlocksWhilesOnly blocks
  | .whileLoop _ body next :: blocks =>
      body.WhilesOnly true ∧ next.WhilesOnly (insideLoop blocks) ∧ BlocksWhilesOnly blocks
  | .forLoop _ _ _ _ _ :: _ | .call _ :: _ => False

structure Machine.WhilesOnly (m : Machine σ) : Prop where
  code : m.code.WhilesOnly (insideLoop m.blocks)
  blocks : BlocksWhilesOnly m.blocks

theorem innermostLoop_whilesOnly {blocks rest : List (Block σ)} {block : Block σ}
    (h : BlocksWhilesOnly blocks) (hloop : innermostLoop blocks = some (block, rest)) :
    BlocksWhilesOnly (block :: rest) := by
  induction blocks with
  | nil => cases hloop
  | cons b blocks ih =>
      cases b with
      | branch r next => exact ih h.2.2 hloop
      | whileLoop c body next =>
          cases hloop
          exact h
      | forLoop hd limit step body next => exact h.elim
      | call next => exact h.elim

theorem choose_whilesOnly {inside : Bool} {user : σ} (rest : Branches σ)
    (hrest : rest.WhilesOnly inside) {b : Code σ} {r : Branches σ} {user' : σ}
    (h : rest.choose user = some (some (b, r), user')) :
    b.WhilesOnly inside ∧ r.WhilesOnly inside := by
  cases rest with
  | endIf => cases h
  | else_ body =>
      cases h
      exact ⟨hrest, trivial⟩
  | elseIf c body rest =>
      rw [Branches.choose] at h
      split at h
      · cases h
      · cases h
        exact hrest
      · exact choose_whilesOnly rest hrest.2 h
termination_by structural rest

theorem chooseBranch_whilesOnly {inside : Bool} {user user' : σ} {c : Expr σ} {body b : Code σ}
    {rest r : Branches σ} (hbody : body.WhilesOnly inside) (hrest : rest.WhilesOnly inside)
    (h : chooseBranch c body rest user = some (some (b, r), user')) :
    b.WhilesOnly inside ∧ r.WhilesOnly inside :=
  choose_whilesOnly (.elseIf c body rest) ⟨hbody, hrest⟩ h

theorem Machine.WhilesOnly.step {subs : ℕ → Option (Code σ)} {m m' : Machine σ}
    (h : m.WhilesOnly) (hstep : m.step subs = some m') : m'.WhilesOnly := by
  obtain ⟨code, blocks, user⟩ := m
  obtain ⟨hcode, hblocks⟩ := h
  cases code with
  | done =>
      cases blocks with
      | nil => cases hstep
      | cons block blocks =>
          cases block with
          | branch rest next =>
              cases hstep
              exact ⟨hblocks.2.1, hblocks.2.2⟩
          | whileLoop c body next =>
              cases hstep
              exact ⟨⟨hblocks.1, hblocks.2.1⟩, hblocks.2.2⟩
          | forLoop h limit step body next => exact hblocks.elim
          | call next => exact hblocks.elim
  | filler f next =>
      cases hstep
      exact ⟨hcode, hblocks⟩
  | statement s next =>
      obtain ⟨user', -, rfl⟩ := Option.map_eq_some_iff.1 hstep
      exact ⟨hcode, hblocks⟩
  | ifThen c body rest next =>
      obtain ⟨⟨_ | ⟨body', rest'⟩, user'⟩, hr, rfl⟩ := Option.map_eq_some_iff.1 hstep
      · exact ⟨hcode.2.2, hblocks⟩
      · obtain ⟨hbody', hrest'⟩ := chooseBranch_whilesOnly hcode.1 hcode.2.1 hr
        exact ⟨hbody', hrest', hcode.2.2, hblocks⟩
  | whileLoop c body next =>
      obtain ⟨⟨_ | _, user'⟩, -, rfl⟩ := Option.map_eq_some_iff.1 hstep
      · exact ⟨hcode.2, hblocks⟩
      · exact ⟨hcode.1, hcode.1, hcode.2, hblocks⟩
  | forLoop h body next => exact hcode.elim
  | continue_ next =>
      obtain ⟨⟨block, rest⟩, hloop, rfl⟩ := Option.map_eq_some_iff.1 hstep
      exact ⟨trivial, innermostLoop_whilesOnly hblocks hloop⟩
  | breakLoop next =>
      obtain ⟨⟨block, rest⟩, hloop, rfl⟩ := Option.map_eq_some_iff.1 hstep
      have hrest := innermostLoop_whilesOnly hblocks hloop
      cases block with
      | branch r next' => exact absurd hloop (innermostLoop_ne_branch blocks r next' rest)
      | whileLoop c body next' => exact ⟨hrest.2.1, hrest.2.2⟩
      | forLoop h limit step body next' => exact hrest.elim
      | call next' => exact hrest.elim
  | call c next => exact hcode.elim
  | return_ next => exact hcode.elim

theorem Machine.WhilesOnly.proper {m : Machine σ} (h : m.WhilesOnly) (tokens : List Token)
    (i : ℕ) : m.Proper tokens i := by
  obtain ⟨code, blocks, user⟩ := m
  obtain ⟨hcode, hblocks⟩ := h
  cases code with
  | breakLoop next =>
      intro block rest hloop
      have hrest := innermostLoop_whilesOnly hblocks hloop
      cases block with
      | forLoop h limit step body next' => exact hrest.elim
      | _ => rfl
  | forLoop h body next => exact hcode.elim
  | return_ next => exact hcode.elim
  | _ => trivial

/-- Such a program stops only at its end or where something fails. -/
theorem Machine.WhilesOnly.stuck {subs : ℕ → Option (Code σ)} {m : Machine σ} (h : m.WhilesOnly)
    (hstep : m.step subs = none) : m.Fails ∨ m.code = .done ∧ m.blocks = [] := by
  obtain ⟨code, blocks, user⟩ := m
  obtain ⟨hcode, hblocks⟩ := h
  cases code with
  | done =>
      cases blocks with
      | nil => exact .inr ⟨rfl, rfl⟩
      | cons block blocks =>
          cases block with
          | branch rest next => cases hstep
          | whileLoop c body next => cases hstep
          | forLoop h limit step body next => exact hblocks.elim
          | call next => exact hblocks.elim
  | filler f next => cases hstep
  | statement s next => exact .inl (Option.map_eq_none_iff.1 hstep)
  | ifThen c body rest next => exact .inl (Option.map_eq_none_iff.1 hstep)
  | whileLoop c body next => exact .inl (Option.map_eq_none_iff.1 hstep)
  | forLoop h body next => exact hcode.elim
  | continue_ next =>
      have hnone : innermostLoop blocks = none := Option.map_eq_none_iff.1 hstep
      have hinside : insideLoop blocks = true := hcode.1
      rw [insideLoop, hnone] at hinside
      cases hinside
  | breakLoop next =>
      have hnone : innermostLoop blocks = none := Option.map_eq_none_iff.1 hstep
      have hinside : insideLoop blocks = true := hcode.1
      rw [insideLoop, hnone] at hinside
      cases hinside
  | call c next => exact hcode.elim
  | return_ next => exact hcode.elim

/-! ## Execution -/

variable {lang : Language σ} {tokens : List Token}

def StopsAt (tokens : List Token) (i : ℕ) : Prop :=
  ∀ t, tokens[i]? = some t → t.type ∈ [.nullToken, .after_, .begin_, .end_, .break_, .label]

theorem turn_stops (lang : Language σ) {i saved : ℕ} {env : InterpEnv σ} (h : StopsAt tokens i) :
    ∃ q, turn lang ⟨tokens, i, saved, env⟩ = ⟨none, .leave 0, q⟩ ∧ q.env = env := by
  cases hget : tokens[i]? with
  | none =>
      refine ⟨⟨tokens, i, i, env⟩, ?_, rfl⟩
      simp only [turn, getToken, getProgramTokenNoEval, getProgramToken, hget]
  | some t =>
      have hhead : [t] <+: tokens.drop i := by
        obtain ⟨hlt, ht⟩ := List.getElem?_eq_some_iff.1 hget
        rw [List.drop_eq_getElem_cons hlt, ht]
        exact List.prefix_append [t] _
      obtain ⟨text, -, hread⟩ := getToken_segment lang hhead saved env
      have htype := h t hget
      simp only [List.mem_cons, List.not_mem_nil, or_false] at htype
      refine ⟨⟨tokens, i + 1, i, env⟩, ?_, rfl⟩
      simp only [turn, hread]
      rcases htype with ht | ht | ht | ht | ht | ht <;> simp only [ht]

theorem executeTurns_go {n : ℕ} {p q r : Running σ} {d : Option Dispatch} {ds : List Dispatch}
    {after : After} (hturn : turn lang p = ⟨d, .go, q⟩)
    (hrest : executeTurns lang n q = (ds, after, r)) :
    executeTurns lang (n + 1) p = (d.toList ++ ds, after, r) := by
  simp only [executeTurns, hturn, hrest]

theorem executeTurns_leave {n iret : ℕ} {p q : Running σ}
    (hturn : turn lang p = ⟨none, .leave iret, q⟩) :
    executeTurns lang (n + 1) p = ([], .leave iret, q) := by
  simp only [executeTurns, hturn]
  rfl

/-- After `n` turns the interpreter has run the statements, and has these variables and this
counter. -/
def Executes (lang : Language σ) (p : Running σ) (n : ℕ) (after : After)
    (ss : List (Statement σ)) (user : σ) (whileNest : ℤ) : Prop :=
  ∃ ds q, executeTurns lang n p = (ds, after, q) ∧ statements ds = ss.map Statement.dispatch ∧
    q.env.user = user ∧ q.env.control.whileNest = whileNest

/-- A turn before other turns, and a step before other steps. -/
theorem Executes.cons {n : ℕ} {p q : Running σ} {m : Machine σ}
    {d : Option Dispatch} {after : After} {ss : List (Statement σ)} {user : σ} {whileNest : ℤ}
    (hturn : turn lang p = ⟨d, .go, q⟩)
    (hd : statements d.toList = m.statement.toList.map Statement.dispatch)
    (h : Executes lang q n after ss user whileNest) :
    Executes lang p (n + 1) after (m.statement.toList ++ ss) user whileNest := by
  obtain ⟨ds, r, hrun, hds, huser, hnest⟩ := h
  refine ⟨_, r, executeTurns_go hturn hrun, ?_, huser, hnest⟩
  have happend : statements (d.toList ++ ds) = statements d.toList ++ statements ds :=
    List.filter_append _ _
  rw [happend, hd, hds, List.map_append]

theorem Machine.steps_cons {subs : ℕ → Option (Code σ)} {n : ℕ} {m m' r : Machine σ}
    {ss : List (Statement σ)} (hstep : m.step subs = some m')
    (hsteps : m'.steps subs n = some (ss, r)) :
    m.steps subs (n + 1) = some (m.statement.toList ++ ss, r) := by
  rw [Machine.steps, hstep]
  simp only [Option.bind_eq_bind, Option.bind_some, hsteps]
  rfl

theorem executes_follows {base : Outside} (hwhiles : 0 ≤ base.whiles)
    (hstops : StopsAt tokens base.finish) (n : ℕ) {m : Machine σ} {p : Running σ}
    (hm : m.WhilesOnly) (hf : Follows lang tokens base m p) :
    (∃ ss m', m.steps (fun _ => none) n = some (ss, m') ∧
      Executes lang p n .go ss m'.user (base.whiles + whileDepth m'.blocks)) ∨
    (∃ k < n, ∃ ss user, m.steps (fun _ => none) k = some (ss, ⟨.done, [], user⟩) ∧
      Executes lang p n (.leave 0) ss user base.whiles) ∨
    ∃ k < n, ∃ ss m', m.steps (fun _ => none) k = some (ss, m') ∧ m'.Fails ∧
      Executes lang p k .go ss m'.user (base.whiles + whileDepth m'.blocks) := by
  have hnow (m : Machine σ) (p : Running σ) (hf : Follows lang tokens base m p) :
      Executes lang p 0 .go [] m.user (base.whiles + whileDepth m.blocks) :=
    ⟨[], p, rfl, rfl, hf.user, hf.whileNest⟩
  induction n generalizing m p with
  | zero => exact .inl ⟨[], m, rfl, hnow m p hf⟩
  | succ n ih =>
      cases hstep : m.step fun _ => none with
      | none =>
          rcases hm.stuck hstep with hfails | ⟨hdone, hblocks⟩
          · exact .inr (.inr ⟨0, Nat.succ_pos n, [], m, rfl, hfails, hnow m p hf⟩)
          · obtain ⟨ts, i, saved, env⟩ := p
            obtain ⟨code, blocks, user⟩ := m
            obtain rfl : ts = tokens := hf.same
            obtain rfl : code = .done := hdone
            obtain rfl : blocks = [] := hblocks
            have hi : i = base.finish := hf.blocks
            rw [← hi] at hstops
            obtain ⟨q, hturn, henv⟩ := turn_stops lang hstops
            refine .inr (.inl ⟨0, Nat.succ_pos n, [], user, rfl, [], q, executeTurns_leave hturn,
              rfl, ?_, ?_⟩)
            · rw [henv]
              exact hf.user
            · rw [henv]
              exact hf.whileNest.trans (add_zero _)
      | some m' =>
          have hcalls : ∀ next, m.code ≠ .return_ next := by
            intro next heq
            have hcode := hm.code
            rw [heq] at hcode
            exact hcode
          obtain ⟨d, q, hturn, hf', hd⟩ := hf.turn (fun _ _ h => by cases h) hwhiles
            (.inr hcalls) (hm.proper tokens p.programIdx) hstep
          rcases ih (hm.step hstep) hf' with ⟨ss, r, hsteps, hrun⟩ |
            ⟨k, hk, ss, user, hsteps, hrun⟩ | ⟨k, hk, ss, r, hsteps, hfails, hrun⟩
          · exact .inl ⟨_, r, Machine.steps_cons hstep hsteps, hrun.cons hturn hd⟩
          · exact .inr (.inl ⟨k + 1, Nat.succ_lt_succ hk, _, user,
              Machine.steps_cons hstep hsteps, hrun.cons hturn hd⟩)
          · exact .inr (.inr ⟨k + 1, Nat.succ_lt_succ hk, _, r,
              Machine.steps_cons hstep hsteps, hfails, hrun.cons hturn hd⟩)

/-- However many turns the interpreter takes, it has run the statements that the program's tree
has run after as many steps, unless the tree ends before, where the interpreter ends as well, or
something fails. -/
theorem execute_structured {code : Code σ} {start : ℕ} {control : Control}
    (hwhiles : code.WhilesOnly false) (hstands : code.Stands lang tokens start)
    (hstops : StopsAt tokens (start + code.size)) (hnest : 0 ≤ control.whileNest) (saved : ℕ)
    (user : σ) (n : ℕ) :
    let p : Running σ := ⟨tokens, start, saved, ⟨control, user⟩⟩
    let m : Machine σ := ⟨code, [], user⟩
    (∃ ss m', m.steps (fun _ => none) n = some (ss, m') ∧
      Executes lang p n .go ss m'.user (control.whileNest + whileDepth m'.blocks)) ∨
    (∃ k < n, ∃ ss user', m.steps (fun _ => none) k = some (ss, ⟨.done, [], user'⟩) ∧
      Executes lang p n (.leave 0) ss user' control.whileNest) ∨
    ∃ k < n, ∃ ss m', m.steps (fun _ => none) k = some (ss, m') ∧ m'.Fails ∧
      Executes lang p k .go ss m'.user (control.whileNest + whileDepth m'.blocks) := by
  have hf : Follows lang tokens
      ⟨control.nest, control.forNest, control.whileNest, start + code.size⟩ ⟨code, [], user⟩
      ⟨tokens, start, saved, ⟨control, user⟩⟩ :=
    ⟨rfl, hstands, rfl, rfl, (add_zero _).symm, (add_zero _).symm, (add_zero _).symm⟩
  have hm : Machine.WhilesOnly ⟨code, [], user⟩ := ⟨hwhiles, trivial⟩
  exact executes_follows hnest hstops n hm hf

end

/-! ## A program that counts -/

def countLanguage : Language ℤ where
  evaluateToken _ text _ := text
  expression tokens i user :=
    let text := match tokens[i]? with
      | none => []
      | some t => if t.type = .identifier then [if user < 2 then chr '1' else chr '0'] else t.text
    ⟨0, text, 1, i, user⟩
  variableGet _ _ _ user := some (intText user)
  variablePut _ _ _ value _ := scanInt value
  label _ _ _ := none
  takeArguments _ _ _ user := (0, 0, user)
  command _ p := ⟨0, false, p.setUser (p.env.user + 1)⟩
  staleIdx := none

def countBelow : Expr ℤ where
  tokens := [word [chr 'n']]
  neutral := .token rfl .nil
  eval user := some ([if user < 2 then chr '1' else chr '0'], user)

def countCode : Code ℤ :=
  .whileLoop countBelow
    (.statement (countUp 2) (.ifThen countBelow (.continue_ .done) .endIf (.breakLoop .done)))
    .done

theorem countBelow_stands {tokens : List Token} {i : ℕ} (h : [word [chr 'n']] <+: tokens.drop i) :
    countBelow.Stands countLanguage tokens i := by
  refine ⟨h, ?_⟩
  intro user value user' heval
  cases heval
  refine ⟨i, ?_⟩
  simp only [countLanguage, getElem?_segment h, word, if_true]
  rfl

theorem countUp_stands {tokens : List Token} {i : ℕ} (h : [mark .let_ rfl] <+: tokens.drop i) :
    (countUp i).Stands countLanguage tokens i := by
  refine ⟨rfl, h, ?_⟩
  intro saved control user user' hrun
  cases hrun
  obtain ⟨text, -, hget⟩ := getToken_segment countLanguage h saved ⟨control, user⟩
  refine ⟨i, control, .refl control, ?_⟩
  simp only [turn, hget, mark]
  rfl

def zeroControl : Control := ⟨0, 0, 0, fun _ => none, fun _ => none, fun _ => none, fun _ => none,
  fun _ => none⟩

theorem execute_structured_count :
    let p : Running ℤ := ⟨countTokens, 0, 0, ⟨zeroControl, 0⟩⟩
    let m : Machine ℤ := ⟨countCode, [], 0⟩
    (∃ ss m', m.steps (fun _ => none) 20 = some (ss, m') ∧
      Executes countLanguage p 20 .go ss m'.user (0 + whileDepth m'.blocks)) ∨
    (∃ k < 20, ∃ ss user', m.steps (fun _ => none) k = some (ss, ⟨.done, [], user'⟩) ∧
      Executes countLanguage p 20 (.leave 0) ss user' 0) ∨
    ∃ k < 20, ∃ ss m', m.steps (fun _ => none) k = some (ss, m') ∧ m'.Fails ∧
      Executes countLanguage p k .go ss m'.user (0 + whileDepth m'.blocks) := by
  have hstands : countCode.Stands countLanguage countTokens 0 := by
    refine ⟨⟨_, rfl⟩, countBelow_stands ⟨_, rfl⟩, ⟨countUp_stands ⟨_, rfl⟩, ⟨_, rfl⟩,
      countBelow_stands ⟨_, rfl⟩, ⟨⟨_, rfl⟩, trivial⟩, ⟨_, rfl⟩, ⟨_, rfl⟩, trivial⟩, ⟨_, rfl⟩,
      trivial⟩
  have hwhiles : countCode.WhilesOnly false :=
    ⟨⟨⟨rfl, trivial⟩, trivial, rfl, trivial⟩, trivial⟩
  have hstops : StopsAt countTokens (0 + countCode.size) := fun t h => by cases h
  exact execute_structured hwhiles hstands hstops le_rfl 0 0 20

end ScOpen
