import ScOpen.StructuredWhiles
import ScOpen.Runs

/-!
# The counters of the loops

Where every step of a structured program is proper, `for_nest` and `while_nest` are the numbers of
the loops around the interpreter, and the variables with these numbers are those of the innermost
loop. A `break_loop` out of a `for` leaves the counter as it is.
-/

namespace ScOpen

structure LoopRun (σ : Type) where
  machine : Machine σ
  program : Running σ

section

variable {σ : Type} (lang : Language σ) (tokens : List Token) (subs : ℕ → Option (Code σ))

def LoopRun.step (s : LoopRun σ) (_ : Unit) : Option (LoopRun σ) :=
  (s.machine.step subs).map fun m => ⟨m, (turn lang s.program).program⟩

def LoopRun.Starts (s : LoopRun σ) : Prop :=
  ∃ code user start saved control, code.Stands lang tokens start ∧ 0 ≤ control.nest ∧
    control.forNest = 0 ∧ control.whileNest = 0 ∧
    s = ⟨⟨code, [], user⟩, ⟨tokens, start, saved, ⟨control, user⟩⟩⟩

/-- The step leaves no `for` by `break_loop` and no loop by `return`, and a loop that is not
entered has no `next` with its own variable before its end. -/
def LoopRun.Proper (s : LoopRun σ) (_ : Unit) : Prop :=
  s.machine.Proper tokens s.program.programIdx

/-- The counters are the numbers of loops around the interpreter, and what is stored under them
belongs to the innermost loop. -/
structure LoopRun.Right (s : LoopRun σ) : Prop where
  forNest : s.program.env.control.forNest = forDepth s.machine.blocks
  whileNest : s.program.env.control.whileNest = whileDepth s.machine.blocks
  ownFor : ∀ h limit step body next blocks,
    s.machine.blocks = .forLoop h limit step body next :: blocks →
    ∃ start, (Code.forLoop h body next).Stands lang tokens start ∧
      s.program.env.control.forIdx s.program.env.control.forNest =
        some (start + (h.tokens.length + 1)) ∧
      s.program.env.control.forTo s.program.env.control.forNest = some limit ∧
      s.program.env.control.forStep s.program.env.control.forNest = some step
  ownWhile : ∀ c body next blocks, s.machine.blocks = .whileLoop c body next :: blocks →
    ∃ start, (Code.whileLoop c body next).Stands lang tokens start ∧
      s.program.env.control.whileIdx s.program.env.control.whileNest = some start

def LoopRun.Followed (s : LoopRun σ) : Prop :=
  ∃ base : Outside, 0 ≤ base.calls ∧ base.fors = 0 ∧ base.whiles = 0 ∧
    Follows lang tokens base s.machine s.program

variable {lang tokens}

theorem Follows.right {base : Outside} {s : LoopRun σ} (hfors : base.fors = 0)
    (hwhiles : base.whiles = 0) (hf : Follows lang tokens base s.machine s.program) :
    s.Right lang tokens := by
  have hfor : s.program.env.control.forNest = forDepth s.machine.blocks := by
    rw [hf.forNest, hfors, zero_add]
  have hwhile : s.program.env.control.whileNest = whileDepth s.machine.blocks := by
    rw [hf.whileNest, hwhiles, zero_add]
  refine ⟨hfor, hwhile, ?_, ?_⟩
  · intro h limit step body next blocks heq
    have hblocks := hf.blocks
    rw [heq] at hblocks hfor
    obtain ⟨⟨start, hidx, hto, hstep, hcode, -⟩, -⟩ := hblocks
    have hnumber : base.fors + forDepth blocks + 1 = s.program.env.control.forNest := by
      rw [hfor, hfors, zero_add, forDepth_for]
    rw [hnumber] at hidx hto hstep
    exact ⟨start, hcode, hidx, hto, hstep⟩
  · intro c body next blocks heq
    have hblocks := hf.blocks
    rw [heq] at hblocks hwhile
    obtain ⟨⟨start, hidx, hcode, -⟩, -⟩ := hblocks
    have hnumber : base.whiles + whileDepth blocks + 1 = s.program.env.control.whileNest := by
      rw [hwhile, hwhiles, zero_add, whileDepth_while]
    rw [hnumber] at hidx
    exact ⟨start, hcode, hidx⟩

/-- In every run of proper steps the counters and what is stored under them are right. -/
theorem loops_right
    (hsubs : ∀ target code, subs target = some code → code.Stands lang tokens target)
    {s : LoopRun σ}
    (h : Runs.Reaches (LoopRun.step lang subs) (LoopRun.Proper tokens)
      (LoopRun.Starts lang tokens) s) : s.Right lang tokens := by
  have hinv : s.Followed lang tokens := by
    refine h.invariant ?_ ?_
    · rintro s ⟨code, user, start, saved, control, hcode, hcalls, hfors, hwhiles, rfl⟩
      refine ⟨⟨control.nest, 0, 0, start + code.size⟩, hcalls, rfl, rfl, ?_⟩
      exact ⟨rfl, hcode, rfl, rfl, (add_zero _).symm, hfors, hwhiles⟩
    · rintro s _ s' ⟨base, hcalls, hfors, hwhiles, hf⟩ hproper hstep
      obtain ⟨m', hm', rfl⟩ := Option.map_eq_some_iff.1 hstep
      obtain ⟨d, q, hturn, hf', -⟩ := hf.turn hsubs hwhiles.ge (.inl hcalls) hproper hm'
      refine ⟨base, hcalls, hfors, hwhiles, ?_⟩
      simp only [hturn]
      exact hf'
  obtain ⟨base, -, hfors, hwhiles, hf⟩ := hinv
  exact hf.right hfors hwhiles

end

/-! ## Leaving a `for` -/

def countHead : ForHead ℤ where
  name := [chr 'n']
  first := countBelow
  limit := countBelow
  step := none
  put value _ := scanInt value
  get user := some (intText user)

def breakCode : Code ℤ := .forLoop countHead (.breakLoop .done) .done

theorem breakCode_stands : breakCode.Stands countLanguage breakTokens 0 := by
  have hhead : countHead.Stands countLanguage breakTokens 1 7 := by
    refine ⟨⟨_, rfl⟩, countBelow_stands ⟨_, rfl⟩, fun _ _ => rfl, countBelow_stands ⟨_, rfl⟩,
      fun _ he => absurd he (by simp [countHead]), ?_, ⟨_, rfl⟩, fun _ => rfl, fun _ _ => rfl⟩
    intro _ t ht
    cases ht
    exact fun h => by cases h
  exact ⟨⟨_, rfl⟩, hhead, ⟨⟨_, rfl⟩, trivial⟩, trivial⟩

def breakStart : LoopRun ℤ :=
  ⟨⟨breakCode, [], 0⟩, ⟨breakTokens, 0, 0, ⟨zeroControl, 0⟩⟩⟩

theorem breakStart_starts : breakStart.Starts countLanguage breakTokens :=
  ⟨breakCode, 0, 0, 0, zeroControl, breakCode_stands, le_rfl, rfl, rfl, rfl⟩

theorem loops_right_entered :
    ∃ s, LoopRun.step countLanguage (fun _ => none) breakStart () = some s ∧
      s.Right countLanguage breakTokens := by
  have hstep : ∃ s, LoopRun.step countLanguage (fun _ => none) breakStart () = some s := ⟨_, rfl⟩
  obtain ⟨s, hs⟩ := hstep
  have hproper : LoopRun.Proper breakTokens breakStart () := by
    intro entry henter hskip
    cases henter
    exact absurd hskip (by decide)
  exact ⟨s, hs, loops_right (fun _ => none) (fun _ _ h => by cases h)
    (.next (.start breakStart_starts) hproper hs)⟩

/-- After `break_loop` out of a `for` the counter is still 1. -/
theorem loops_not_always_right :
    ∃ s, Runs.Reaches (LoopRun.step countLanguage fun _ => none) (fun _ _ => True)
      (LoopRun.Starts countLanguage breakTokens) s ∧ ¬s.Right countLanguage breakTokens := by
  have hrun : ∃ s, [(), ()].foldlM (LoopRun.step countLanguage fun _ => none) breakStart = some s ∧
      s.program.env.control.forNest = 1 ∧ s.machine.blocks = [] := ⟨_, rfl, rfl, rfl⟩
  obtain ⟨s, hs, hnest, hblocks⟩ := hrun
  refine ⟨s, Runs.Reaches.run (.start breakStart_starts) hs, ?_⟩
  intro hright
  have hdepth := hright.forNest
  rw [hnest, hblocks] at hdepth
  cases hdepth

end ScOpen
