import ScOpen.StructuredFors

/-!
# Each turn is a step of the structured program
-/

namespace ScOpen

section

variable {σ : Type} {lang : Language σ} {tokens : List Token}

/-! ## Leaving loops -/

theorem innermostLoop_eq {blocks rest : List (Block σ)} {block : Block σ}
    (h : innermostLoop blocks = some (block, rest)) :
    whileDepth blocks = whileDepth (block :: rest) ∧ forDepth blocks = forDepth (block :: rest) ∧
      callDepth blocks = callDepth (block :: rest) := by
  induction blocks with
  | nil => cases h
  | cons b blocks ih =>
      cases b with
      | branch r next =>
          obtain ⟨hw, hf, hc⟩ := ih h
          exact ⟨hw, hf, hc⟩
      | whileLoop c body next =>
          cases h
          exact ⟨rfl, rfl, rfl⟩
      | forLoop hd limit step body next =>
          cases h
          exact ⟨rfl, rfl, rfl⟩
      | call next => cases h

theorem innermostLoop_ne_branch (blocks : List (Block σ)) (r : Branches σ) (next : Code σ)
    (rest : List (Block σ)) : innermostLoop blocks ≠ some (.branch r next, rest) := by
  induction blocks with
  | nil => exact fun h => by cases h
  | cons b blocks ih =>
      cases b with
      | branch r' next' => exact ih
      | whileLoop c body next' => exact fun h => by cases h
      | forLoop hd limit step body next' => exact fun h => by cases h
      | call next' => exact fun h => by cases h

theorem innermostLoop_ne_call (blocks : List (Block σ)) (next : Code σ)
    (rest : List (Block σ)) : innermostLoop blocks ≠ some (.call next, rest) := by
  induction blocks with
  | nil => exact fun h => by cases h
  | cons b blocks ih =>
      cases b with
      | branch r' next' => exact ih
      | whileLoop c body next' => exact fun h => by cases h
      | forLoop hd limit step body next' => exact fun h => by cases h
      | call next' => exact fun h => by cases h

/-- The scan for the end of a loop passes over what is left of the branches inside of it. -/
theorem loopEnd_blocks {c : Control} {base : Outside} {blocks rest : List (Block σ)}
    {block : Block σ} {i : ℕ} (h : BlocksStand lang tokens c base i blocks)
    (hloop : innermostLoop blocks = some (block, rest)) :
    ∃ j, i + loopEnd 0 0 (tokens.drop i) = j ∧ BlocksStand lang tokens c base j (block :: rest) := by
  induction blocks generalizing i with
  | nil => cases hloop
  | cons b blocks ih =>
      cases b with
      | branch r next =>
          obtain ⟨hr, hnext, hrest⟩ := h
          obtain ⟨j, hj, hblock⟩ := ih hrest hloop
          have hskip := skips_loopEnd.branches r i hr (0, 0)
          have hskip' := skips_loopEnd.code next _ hnext (0, 0)
          refine ⟨j, ?_, hblock⟩
          simp only [id] at hskip hskip'
          omega
      | whileLoop e body next =>
          cases hloop
          obtain ⟨start, -, hcode, hi⟩ := h.1
          have hend := hcode.2.2.2.1
          rw [← hi] at hend
          refine ⟨i, ?_, h⟩
          rw [drop_segment hend]
          rfl
      | forLoop hd limit step body next =>
          cases hloop
          obtain ⟨start, -, -, -, hcode, hi⟩ := h.1
          have hend := hcode.2.1.next
          rw [← hi] at hend
          refine ⟨i, ?_, h⟩
          rw [drop_segment hend]
          rfl
      | call next => cases hloop

theorem innermostCall_stands {c : Control} {base : Outside} {blocks rest : List (Block σ)}
    {next : Code σ} {i : ℕ} (h : BlocksStand lang tokens c base i blocks)
    (hcall : innermostCall blocks = some (next, rest)) :
    callDepth blocks = callDepth rest + 1 ∧
      ∃ idx, c.returnIdx (base.calls + callDepth rest + 1) = some idx ∧
        next.Stands lang tokens idx ∧ BlocksStand lang tokens c base (idx + next.size) rest := by
  induction blocks generalizing i with
  | nil => cases hcall
  | cons b blocks ih =>
      cases b with
      | branch r next' => exact ih h.2.2 hcall
      | whileLoop e body next' => exact ih h.2 hcall
      | forLoop hd limit step body next' => exact ih h.2 hcall
      | call next' =>
          cases hcall
          exact ⟨by simp, h⟩

theorem turn_continue {t : Token} {i j : ℕ} (h : [mark .continue_ rfl] <+: tokens.drop i)
    (hj : i + 1 + loopEnd 0 0 (tokens.drop (i + 1)) = j) (hend : [t] <+: tokens.drop j)
    (htype : t.type = .next ∨ t.type = .endWhile) (saved : ℕ) (env : InterpEnv σ) :
    turn lang ⟨tokens, i, saved, env⟩ = ⟨some (i, .continue_), .go, ⟨tokens, j, j, env⟩⟩ := by
  rw [← hj] at hend
  have hread := readAfter_segment hend i env
  apply turn_command lang .continue_ h rfl rfl
  have hcmd : cmdContinue ⟨tokens, i + 1, i, env⟩ = ⟨tokens, j, j, env⟩ := by
    rw [cmdContinue]
    simp only [Running.ahead, hread, if_pos htype, hj]
    rfl
  simp only [command, hcmd, noWait]

theorem turn_breakLoop {i j : ℕ} (h : [mark .breakLoop rfl] <+: tokens.drop i)
    (hj : i + 1 + loopEnd 0 0 (tokens.drop (i + 1)) = j)
    (hend : [mark .endWhile rfl] <+: tokens.drop j) (saved : ℕ) (control : Control) (user : σ) :
    turn lang ⟨tokens, i, saved, ⟨control, user⟩⟩ = ⟨some (i, .breakLoop), .go,
      ⟨tokens, j + 1, j, ⟨{ control with whileNest := control.whileNest - 1 }, user⟩⟩⟩ := by
  rw [← hj] at hend
  have hread := readAfter_segment hend i ⟨control, user⟩
  apply turn_command lang .breakLoop h rfl rfl
  have hcmd : cmdBreakLoop ⟨tokens, i + 1, i, ⟨control, user⟩⟩ =
      ⟨tokens, j + 1, j, ⟨{ control with whileNest := control.whileNest - 1 }, user⟩⟩ := by
    rw [cmdBreakLoop]
    simp only [Running.ahead, hread, mark, reduceCtorEq, if_false, if_true, hj]
    rfl
  simp only [command, hcmd, noWait]

/-! ## The steps -/

theorem BlocksStand.at {c : Control} {base : Outside} {blocks : List (Block σ)} {i j : ℕ}
    (h : BlocksStand lang tokens c base i blocks) (hij : i = j) :
    BlocksStand lang tokens c base j blocks := hij ▸ h

theorem Code.Stands.at {code : Code σ} {i j : ℕ} (h : code.Stands lang tokens i) (hij : i = j) :
    code.Stands lang tokens j := hij ▸ h

variable {base : Outside} {control : Control} {blocks : List (Block σ)} {user : σ} {i saved : ℕ}

theorem follows_filler {f : Filler} {next : Code σ}
    (hf : Follows lang tokens base ⟨.filler f next, blocks, user⟩
      ⟨tokens, i, saved, ⟨control, user⟩⟩) :
    TurnFollows lang tokens base ⟨.filler f next, blocks, user⟩ ⟨next, blocks, user⟩
      ⟨tokens, i, saved, ⟨control, user⟩⟩ := by
  obtain ⟨saved', hturn⟩ := turn_filler lang hf.code.1 saved ⟨control, user⟩
  refine ⟨_, _, hturn, ⟨rfl, hf.code.2, hf.blocks.at ?_, rfl, hf.nest, hf.forNest, hf.whileNest⟩,
    rfl⟩
  simp only [Code.size]
  omega

theorem follows_statement {s : Statement σ} {next : Code σ} {user' : σ}
    (hf : Follows lang tokens base ⟨.statement s next, blocks, user⟩
      ⟨tokens, i, saved, ⟨control, user⟩⟩) (hrun : s.run user = some user') :
    TurnFollows lang tokens base ⟨.statement s next, blocks, user⟩ ⟨next, blocks, user'⟩
      ⟨tokens, i, saved, ⟨control, user⟩⟩ := by
  obtain ⟨hs, hnext⟩ := hf.code
  obtain ⟨saved', control', hkeeps, hturn⟩ := hs.runs saved control user user' hrun
  have hsame : SameBelow base blocks control control' := by
    have hnest := hf.nest
    have hfor := hf.forNest
    have hwhile := hf.whileNest
    constructor
    · exact fun n hn => hkeeps.returnIdx n (hn.trans hnest.ge)
    · exact fun n hn => hkeeps.forIdx n (hn.trans hfor.ge)
    · exact fun n hn => hkeeps.forTo n (hn.trans hfor.ge)
    · exact fun n hn => hkeeps.forStep n (hn.trans hfor.ge)
    · exact fun n hn => hkeeps.whileIdx n (hn.trans hwhile.ge)
  refine ⟨_, _, hturn, ⟨rfl, hnext, (hf.blocks.congr hsame).at ?_, rfl, hkeeps.nest.trans hf.nest,
    hkeeps.forNest.trans hf.forNest, hkeeps.whileNest.trans hf.whileNest⟩, ?_⟩
  · simp only [Code.size]
    omega
  · have hkeep : statements [(i, s.head.type)] = [(i, s.head.type)] :=
      List.filter_cons_of_pos (by simp only [s.isControl, Bool.not_false])
    have hhere : s.place = i := hs.here
    rw [Option.toList_some, hkeep, ← hhere]
    rfl

theorem follows_ifThen {c : Expr σ} {body : Code σ} {rest : Branches σ} {next : Code σ}
    {r : Option (Code σ × Branches σ) × σ}
    (hf : Follows lang tokens base ⟨.ifThen c body rest next, blocks, user⟩
      ⟨tokens, i, saved, ⟨control, user⟩⟩) (hr : chooseBranch c body rest user = some r) :
    TurnFollows lang tokens base ⟨.ifThen c body rest next, blocks, user⟩
      (match r with
        | (none, user) => ⟨next, blocks, user⟩
        | (some (body, rest), user) => ⟨body, .branch rest next :: blocks, user⟩)
      ⟨tokens, i, saved, ⟨control, user⟩⟩ := by
  have hcode : (Code.ifThen c body rest next).Stands lang tokens i := hf.code
  obtain ⟨hif, hc, hbody, hrest, hnext⟩ := hcode
  have hplace : i + (c.tokens.length + 1) = i + 1 + c.tokens.length := by omega
  rw [hplace] at hbody hrest hnext
  obtain ⟨q, hcmd, hstands⟩ := cmdIf_choose lang rest hc hbody hrest hr i control
  have hturn : turn lang ⟨tokens, i, saved, ⟨control, user⟩⟩ = ⟨some (i, .if_), .go, q⟩ := by
    apply turn_command lang .if_ hif rfl rfl
    simp only [command, hcmd, noWait]
  refine ⟨_, _, hturn, ?_, rfl⟩
  obtain ⟨_ | ⟨body', rest'⟩, user'⟩ := r
  · obtain ⟨saved', rfl⟩ := hstands
    refine ⟨rfl, hnext.at rfl, hf.blocks.at ?_, rfl, hf.nest, hf.forNest, hf.whileNest⟩
    simp only [Code.size]
    omega
  · obtain ⟨j, saved', rfl, hbody', hrest', hend⟩ := hstands
    refine ⟨rfl, hbody', ⟨hrest', hnext.at hend.symm, hf.blocks.at ?_⟩, rfl, ?_, ?_, ?_⟩
    · simp only [Code.size]
      omega
    · rw [callDepth_cons]
      exact hf.nest.trans (by simp)
    · rw [forDepth_cons]
      exact hf.forNest.trans (by simp)
    · rw [whileDepth_cons]
      exact hf.whileNest.trans (by simp)

theorem follows_branchEnd {rest : Branches σ} {next : Code σ}
    (hf : Follows lang tokens base ⟨.done, .branch rest next :: blocks, user⟩
      ⟨tokens, i, saved, ⟨control, user⟩⟩) :
    TurnFollows lang tokens base ⟨.done, .branch rest next :: blocks, user⟩ ⟨next, blocks, user⟩
      ⟨tokens, i, saved, ⟨control, user⟩⟩ := by
  obtain ⟨hrest, hnext, hblocks⟩ := hf.blocks
  obtain ⟨d, saved', hturn, hd⟩ := turn_branchEnd lang hrest saved ⟨control, user⟩
  refine ⟨d, _, hturn, ⟨rfl, hnext, hblocks, rfl, ?_, ?_, ?_⟩, ?_⟩
  · exact hf.nest.trans (by simp)
  · exact hf.forNest.trans (by simp)
  · exact hf.whileNest.trans (by simp)
  · apply List.filter_eq_nil_iff.2
    intro x hx
    simp only [hd x (Option.mem_toList.1 hx), Bool.not_true, Bool.false_eq_true, not_false_eq_true]

theorem follows_while {c : Expr σ} {body next : Code σ} {b : Bool} {user' : σ}
    (hf : Follows lang tokens base ⟨.whileLoop c body next, blocks, user⟩
      ⟨tokens, i, saved, ⟨control, user⟩⟩) (htest : c.test user = some (b, user')) :
    TurnFollows lang tokens base ⟨.whileLoop c body next, blocks, user⟩
      (match b with
        | true => ⟨body, .whileLoop c body next :: blocks, user'⟩
        | false => ⟨next, blocks, user'⟩)
      ⟨tokens, i, saved, ⟨control, user⟩⟩ := by
  have hcode : (Code.whileLoop c body next).Stands lang tokens i := hf.code
  have hnest : control.whileNest = base.whiles + whileDepth blocks := hf.whileNest
  obtain ⟨saved', hturn⟩ := turn_while hcode htest saved control
  refine ⟨_, _, hturn, ?_, rfl⟩
  have hsame : SameBelow base blocks control (control.inWhile i) := by
    refine ⟨fun _ _ => rfl, fun _ _ => rfl, fun _ _ => rfl, fun _ _ => rfl, ?_⟩
    intro n hn
    exact Function.update_of_ne (by omega) _ _
  have hblocks : BlocksStand lang tokens control base
      (i + (c.tokens.length + 1) + body.size + 1 + next.size) blocks := by
    refine hf.blocks.at ?_
    simp only [Code.size]
    omega
  cases b with
  | true =>
      refine ⟨rfl, hcode.2.2.1, ⟨⟨i, ?_, hcode, rfl⟩, hblocks.congr hsame⟩, rfl, ?_, ?_, ?_⟩
      · rw [← hnest]
        exact Function.update_self _ _ _
      · rw [callDepth_cons]
        exact hf.nest.trans (by simp)
      · rw [forDepth_cons]
        exact hf.forNest.trans (by simp)
      · have hin : (control.inWhile i).whileNest = control.whileNest + 1 := rfl
        simp only [whileProgram, hin, whileDepth_while]
        omega
  | false =>
      exact ⟨rfl, hcode.2.2.2.2, hblocks.congr ⟨hsame.1, hsame.2, hsame.3, hsame.4, hsame.5⟩, rfl,
        hf.nest, hf.forNest, hf.whileNest⟩

theorem follows_whileEnd {c : Expr σ} {body next : Code σ} (hbase : 0 ≤ base.whiles)
    (hf : Follows lang tokens base ⟨.done, .whileLoop c body next :: blocks, user⟩
      ⟨tokens, i, saved, ⟨control, user⟩⟩) :
    TurnFollows lang tokens base ⟨.done, .whileLoop c body next :: blocks, user⟩
      ⟨.whileLoop c body next, blocks, user⟩ ⟨tokens, i, saved, ⟨control, user⟩⟩ := by
  obtain ⟨⟨start, hidx, hcode, hi⟩, hblocks⟩ := hf.blocks
  have hnest : control.whileNest = base.whiles + whileDepth blocks + 1 := by
    have h := hf.whileNest
    rw [whileDepth_while] at h
    exact h.trans (add_assoc _ _ _).symm
  have hpos := whileDepth_nonneg blocks
  have hend : [mark .endWhile rfl] <+: tokens.drop i := by
    have h := hcode.2.2.2.1
    rw [← hi] at h
    exact h
  have hidx' : control.whileIdx control.whileNest = some start := by
    rw [hnest]
    exact hidx
  have hturn := turn_endWhile lang hend (by omega) hidx' saved user
  refine ⟨_, _, hturn, ⟨rfl, hcode, ?_, rfl, hf.nest, hf.forNest, ?_⟩, rfl⟩
  · refine (hblocks.nests control.nest control.forNest (control.whileNest - 1)).at ?_
    have hi' : i + 0 = start + (c.tokens.length + 1) + body.size := hi
    simp only [Code.size]
    omega
  · have h : control.whileNest - 1 = base.whiles + whileDepth blocks := by omega
    exact h

theorem follows_for_enter {h : ForHead σ} {body next : Code σ} {entry : Entry σ}
    (hf : Follows lang tokens base ⟨.forLoop h body next, blocks, user⟩
      ⟨tokens, i, saved, ⟨control, user⟩⟩) (henter : h.enter user = some entry)
    (hle : ¬entry.first > entry.limit) :
    TurnFollows lang tokens base ⟨.forLoop h body next, blocks, user⟩
      ⟨body, .forLoop h entry.limit entry.step body next :: blocks, entry.user⟩
      ⟨tokens, i, saved, ⟨control, user⟩⟩ := by
  have hcode : (Code.forLoop h body next).Stands lang tokens i := hf.code
  have hnest : control.forNest = base.fors + forDepth blocks := hf.forNest
  obtain ⟨saved', hturn⟩ := turn_for_enter hcode henter hle saved control
  have hsame : SameBelow base blocks control
      (control.inFor entry.limit entry.step (i + (h.tokens.length + 1))) := by
    refine ⟨fun _ _ => rfl, ?_, ?_, ?_, fun _ _ => rfl⟩ <;>
      exact fun n hn => Function.update_of_ne (by omega) _ _
  refine ⟨_, _, hturn, ⟨rfl, hcode.2.2.1, ⟨⟨i, ?_, ?_, ?_, hcode, rfl⟩,
    (hf.blocks.congr hsame).at ?_⟩, rfl, ?_, ?_, ?_⟩, rfl⟩
  · rw [← hnest]
    exact Function.update_self _ _ _
  · rw [← hnest]
    exact Function.update_self _ _ _
  · rw [← hnest]
    exact Function.update_self _ _ _
  · simp only [Code.size]
    omega
  · rw [callDepth_cons]
    exact hf.nest.trans (by simp)
  · have hin : (control.inFor entry.limit entry.step (i + (h.tokens.length + 1))).forNest =
        control.forNest + 1 := rfl
    simp only [hin, forDepth_for]
    omega
  · rw [whileDepth_cons]
    exact hf.whileNest.trans (by simp)

theorem follows_for_skip {h : ForHead σ} {body next : Code σ} {entry : Entry σ}
    (hf : Follows lang tokens base ⟨.forLoop h body next, blocks, user⟩
      ⟨tokens, i, saved, ⟨control, user⟩⟩) (henter : h.enter user = some entry)
    (hskip : entry.first > entry.limit)
    (hfree : nextFree h.name ((tokens.drop (i + (h.tokens.length + 1))).take body.size) = true) :
    TurnFollows lang tokens base ⟨.forLoop h body next, blocks, user⟩ ⟨next, blocks, entry.user⟩
      ⟨tokens, i, saved, ⟨control, user⟩⟩ := by
  have hcode : (Code.forLoop h body next).Stands lang tokens i := hf.code
  have hnest : control.forNest = base.fors + forDepth blocks := hf.forNest
  obtain ⟨saved', hturn⟩ := turn_for_skip hcode henter hskip hfree saved control
  have hsame : SameBelow base blocks control (control.setFor (control.forNest + 1) entry.limit
      entry.step (i + (h.tokens.length + 1))) := by
    refine ⟨fun _ _ => rfl, ?_, ?_, ?_, fun _ _ => rfl⟩ <;>
      exact fun n hn => Function.update_of_ne (by omega) _ _
  refine ⟨_, _, hturn, ⟨rfl, hcode.2.2.2, (hf.blocks.congr hsame).at ?_, rfl, hf.nest, hf.forNest,
    hf.whileNest⟩, rfl⟩
  simp only [Code.size]
  omega

theorem follows_next {h : ForHead σ} {limit step : ℤ} {body next : Code σ} {value : Bytes}
    (hf : Follows lang tokens base ⟨.done, .forLoop h limit step body next :: blocks, user⟩
      ⟨tokens, i, saved, ⟨control, user⟩⟩) (hvalue : h.get user = some value) :
    TurnFollows lang tokens base ⟨.done, .forLoop h limit step body next :: blocks, user⟩
      (if nextValue value step ≤ limit then
        ⟨body, .forLoop h limit step body next :: blocks,
          h.put (intText (nextValue value step)) user⟩
      else ⟨next, blocks, user⟩) ⟨tokens, i, saved, ⟨control, user⟩⟩ := by
  obtain ⟨⟨start, hidx, hto, hstep, hcode, hi⟩, hblocks⟩ := hf.blocks
  have hi' : i = start + (h.tokens.length + 1) + body.size := hi
  have hnest : control.forNest = base.fors + forDepth blocks + 1 := by
    have h := hf.forNest
    rw [forDepth_for] at h
    exact h.trans (add_assoc _ _ _).symm
  have hidx' : control.forIdx control.forNest = some (start + (h.tokens.length + 1)) := by
    rw [hnest]
    exact hidx
  have hto' : control.forTo control.forNest = some limit := by
    rw [hnest]
    exact hto
  have hstep' : control.forStep control.forNest = some step := by
    rw [hnest]
    exact hstep
  have hhead : h.Stands lang tokens (start + 1) i := by
    rw [hi']
    exact hcode.2.1
  have hturn := turn_next hhead hto' hstep' hidx' hvalue saved
  refine ⟨_, _, hturn, ?_, rfl⟩
  split
  · refine ⟨rfl, hcode.2.2.1, ⟨⟨start, hidx, hto, hstep, hcode, rfl⟩, hblocks.at ?_⟩, rfl,
      hf.nest, hf.forNest, hf.whileNest⟩
    have hi'' : i + 0 = start + (h.tokens.length + 1) + body.size := hi
    simp only [Code.size]
    omega
  · refine ⟨rfl, ?_, ?_, rfl, hf.nest, ?_, hf.whileNest⟩
    · exact hcode.2.2.2.at (by simp only [hi'])
    · exact hblocks.nests control.nest (control.forNest - 1) control.whileNest
    · have h : control.forNest - 1 = base.fors + forDepth blocks := by omega
      exact h

theorem follows_continue {next : Code σ} {block : Block σ} {rest : List (Block σ)}
    (hf : Follows lang tokens base ⟨.continue_ next, blocks, user⟩
      ⟨tokens, i, saved, ⟨control, user⟩⟩) (hloop : innermostLoop blocks = some (block, rest)) :
    TurnFollows lang tokens base ⟨.continue_ next, blocks, user⟩ ⟨.done, block :: rest, user⟩
      ⟨tokens, i, saved, ⟨control, user⟩⟩ := by
  obtain ⟨hhere, hnext⟩ := hf.code
  obtain ⟨hw, hfor, hcall⟩ := innermostLoop_eq hloop
  have hblocks : BlocksStand lang tokens control base (i + 1 + next.size) blocks := by
    refine hf.blocks.at ?_
    simp only [Code.size]
    omega
  obtain ⟨j, hj, hblock⟩ := loopEnd_blocks hblocks hloop
  have hskip := skips_loopEnd.code next _ hnext (0, 0)
  have hj' : i + 1 + loopEnd 0 0 (tokens.drop (i + 1)) = j := by
    simp only at hskip
    omega
  have hfollows (saved : ℕ) : Follows lang tokens base ⟨.done, block :: rest, user⟩
      ⟨tokens, j, saved, ⟨control, user⟩⟩ := by
    refine ⟨rfl, trivial, hblock, rfl, ?_, ?_, ?_⟩
    · rw [← hcall]
      exact hf.nest
    · rw [← hfor]
      exact hf.forNest
    · rw [← hw]
      exact hf.whileNest
  cases block with
  | branch r next' => exact absurd hloop (innermostLoop_ne_branch blocks r next' rest)
  | whileLoop c body next' =>
      obtain ⟨start, -, hcode, hi⟩ := hblock.1
      have hend := hcode.2.2.2.1
      rw [← hi] at hend
      exact ⟨_, _, turn_continue hhere hj' hend (.inr rfl) saved _, hfollows j, rfl⟩
  | forLoop h limit step body next' =>
      obtain ⟨start, -, -, -, hcode, hi⟩ := hblock.1
      have hend := hcode.2.1.next
      rw [← hi] at hend
      have hend' : [mark .next rfl] <+: tokens.drop j := (List.prefix_append [_] _).trans hend
      exact ⟨_, _, turn_continue hhere hj' hend' (.inl rfl) saved _, hfollows j, rfl⟩
  | call next' => exact absurd hloop (innermostLoop_ne_call blocks next' rest)

theorem follows_breakLoop {next : Code σ} {block : Block σ} {rest : List (Block σ)}
    (hf : Follows lang tokens base ⟨.breakLoop next, blocks, user⟩
      ⟨tokens, i, saved, ⟨control, user⟩⟩) (hloop : innermostLoop blocks = some (block, rest))
    (hwhile : block.isFor = false) :
    TurnFollows lang tokens base ⟨.breakLoop next, blocks, user⟩ ⟨block.next, rest, user⟩
      ⟨tokens, i, saved, ⟨control, user⟩⟩ := by
  obtain ⟨hhere, hnext⟩ := hf.code
  obtain ⟨hw, hfor, hcall⟩ := innermostLoop_eq hloop
  have hblocks : BlocksStand lang tokens control base (i + 1 + next.size) blocks := by
    refine hf.blocks.at ?_
    simp only [Code.size]
    omega
  obtain ⟨j, hj, hblock⟩ := loopEnd_blocks hblocks hloop
  have hskip := skips_loopEnd.code next _ hnext (0, 0)
  have hj' : i + 1 + loopEnd 0 0 (tokens.drop (i + 1)) = j := by
    simp only at hskip
    omega
  cases block with
  | branch r next' => exact absurd hloop (innermostLoop_ne_branch blocks r next' rest)
  | whileLoop c body next' =>
      obtain ⟨⟨start, -, hcode, hi⟩, hrest⟩ := hblock
      have hend := hcode.2.2.2.1
      rw [← hi] at hend
      refine ⟨_, _, turn_breakLoop hhere hj' hend saved control user,
        ⟨rfl, hcode.2.2.2.2.at (by rw [hi]), ?_, rfl, ?_, ?_, ?_⟩, rfl⟩
      · exact hrest.nests control.nest control.forNest (control.whileNest - 1)
      · have h := hf.nest
        rw [hcall, callDepth_cons] at h
        exact h.trans (by simp)
      · have h := hf.forNest
        rw [hfor, forDepth_cons] at h
        exact h.trans (by simp)
      · have h : control.whileNest = base.whiles + whileDepth blocks := hf.whileNest
        rw [hw, whileDepth_while] at h
        have hleft : control.whileNest - 1 = base.whiles + whileDepth rest := by omega
        exact hleft
  | forLoop h limit step body next' => cases hwhile
  | call next' => exact absurd hloop (innermostLoop_ne_call blocks next' rest)

theorem follows_call {c : Call σ} {next body : Code σ} {user' : σ}
    (hf : Follows lang tokens base ⟨.call c next, blocks, user⟩
      ⟨tokens, i, saved, ⟨control, user⟩⟩) (hrun : c.run user = some user')
    (hbody : body.Stands lang tokens c.target) :
    TurnFollows lang tokens base ⟨.call c next, blocks, user⟩
      ⟨body, .call next :: blocks, user'⟩ ⟨tokens, i, saved, ⟨control, user⟩⟩ := by
  obtain ⟨hcall, hnext⟩ := hf.code
  have hnest : control.nest = base.calls + callDepth blocks := hf.nest
  obtain ⟨saved', hturn⟩ := hcall.runs saved control user user' hrun
  have hsame : SameBelow base blocks control (control.called (i + (c.args.length + 1))) := by
    refine ⟨?_, fun _ _ => rfl, fun _ _ => rfl, fun _ _ => rfl, fun _ _ => rfl⟩
    exact fun n hn => Function.update_of_ne (by omega) _ _
  refine ⟨_, _, hturn, ⟨rfl, hbody, ⟨_, ?_, hnext, (hf.blocks.congr hsame).at ?_⟩, rfl, ?_, ?_, ?_⟩,
    rfl⟩
  · rw [← hnest]
    exact Function.update_self _ _ _
  · simp only [Code.size]
    omega
  · have h : control.nest + 1 = base.calls + callDepth (.call next :: blocks) := by
      rw [callDepth_call]
      omega
    exact h
  · rw [forDepth_cons]
    exact hf.forNest.trans (by simp)
  · rw [whileDepth_cons]
    exact hf.whileNest.trans (by simp)

theorem follows_return {next next' : Code σ} {rest : List (Block σ)} (hbase : 0 ≤ base.calls)
    (hf : Follows lang tokens base ⟨.return_ next, blocks, user⟩
      ⟨tokens, i, saved, ⟨control, user⟩⟩) (hcall : innermostCall blocks = some (next', rest))
    (hfor : forDepth blocks = forDepth rest) (hwhile : whileDepth blocks = whileDepth rest) :
    TurnFollows lang tokens base ⟨.return_ next, blocks, user⟩ ⟨next', rest, user⟩
      ⟨tokens, i, saved, ⟨control, user⟩⟩ := by
  obtain ⟨hdepth, idx, hidx, hnext, hrest⟩ := innermostCall_stands hf.blocks hcall
  have hpos := callDepth_nonneg rest
  have hnest : control.nest = base.calls + callDepth rest + 1 := by
    have h := hf.nest
    rw [hdepth] at h
    exact h.trans (by simp only [add_assoc])
  have hidx' : control.returnIdx control.nest = some idx := by
    rw [hnest]
    exact hidx
  have hturn := turn_return lang hf.code.1 (by omega) hidx' saved user
  refine ⟨_, _, hturn, ⟨rfl, hnext, ?_, rfl, ?_, ?_, ?_⟩, rfl⟩
  · exact hrest.nests (control.nest - 1) control.forNest control.whileNest
  · have h : control.nest - 1 = base.calls + callDepth rest := by omega
    exact h
  · have h := hf.forNest
    rw [hfor] at h
    exact h
  · have h := hf.whileNest
    rw [hwhile] at h
    exact h

/-- Where a step is proper, the interpreter's turn does the same. -/
theorem Follows.turn {subs : ℕ → Option (Code σ)}
    (hsubs : ∀ target code, subs target = some code → code.Stands lang tokens target)
    (hwhiles : 0 ≤ base.whiles) {m m' : Machine σ} {p : Running σ}
    (hcalls : 0 ≤ base.calls ∨ ∀ next, m.code ≠ .return_ next)
    (hf : Follows lang tokens base m p) (hproper : m.Proper tokens p.programIdx)
    (hstep : m.step subs = some m') : TurnFollows lang tokens base m m' p := by
  obtain ⟨ts, i, saved, control, user₀⟩ := p
  obtain ⟨code, blocks, user⟩ := m
  obtain rfl : ts = tokens := hf.same
  obtain rfl : user₀ = user := hf.user
  cases code with
  | done =>
      cases blocks with
      | nil => cases hstep
      | cons block blocks =>
          cases block with
          | branch rest next =>
              cases hstep
              exact follows_branchEnd hf
          | whileLoop c body next =>
              cases hstep
              exact follows_whileEnd hwhiles hf
          | forLoop h limit step body next =>
              obtain ⟨value, hvalue, rfl⟩ := Option.map_eq_some_iff.1 hstep
              exact follows_next hf hvalue
          | call next => cases hstep
  | filler f next =>
      cases hstep
      exact follows_filler hf
  | statement s next =>
      obtain ⟨user', hrun, rfl⟩ := Option.map_eq_some_iff.1 hstep
      exact follows_statement hf hrun
  | ifThen c body rest next =>
      obtain ⟨⟨_ | ⟨body', rest'⟩, user'⟩, hr, rfl⟩ := Option.map_eq_some_iff.1 hstep
      · exact follows_ifThen hf hr
      · exact follows_ifThen hf hr
  | whileLoop c body next =>
      obtain ⟨⟨_ | _, user'⟩, htest, rfl⟩ := Option.map_eq_some_iff.1 hstep
      · exact follows_while hf htest
      · exact follows_while hf htest
  | forLoop h body next =>
      obtain ⟨entry, henter, rfl⟩ := Option.map_eq_some_iff.1 hstep
      by_cases hskip : entry.first > entry.limit
      · rw [if_pos hskip]
        exact follows_for_skip hf henter hskip (hproper entry henter hskip)
      · rw [if_neg hskip]
        exact follows_for_enter hf henter hskip
  | continue_ next =>
      obtain ⟨⟨block, rest⟩, hloop, rfl⟩ := Option.map_eq_some_iff.1 hstep
      exact follows_continue hf hloop
  | breakLoop next =>
      obtain ⟨⟨block, rest⟩, hloop, rfl⟩ := Option.map_eq_some_iff.1 hstep
      exact follows_breakLoop hf hloop (hproper block rest hloop)
  | call c next =>
      obtain ⟨user', hrun, hrest⟩ := Option.bind_eq_some_iff.1 hstep
      obtain ⟨body, hbody, hm⟩ := Option.bind_eq_some_iff.1 hrest
      cases hm
      exact follows_call hf hrun (hsubs c.target body hbody)
  | return_ next =>
      obtain ⟨⟨next', rest⟩, hcall, rfl⟩ := Option.map_eq_some_iff.1 hstep
      obtain ⟨hfor, hwhile⟩ := hproper next' rest hcall
      have hcalls' : 0 ≤ base.calls := hcalls.resolve_right fun h => h next rfl
      exact follows_return hcalls' hf hcall hfor hwhile

end

end ScOpen
