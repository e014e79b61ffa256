import ScOpen.Outcomes
import ScOpen.Settling
import ScOpen.StructuredSteps

/-!
# What structured programs do

The meaning of a structured program is put together from the meanings of its parts. A loop is left
by `break_loop` only if it is a `while`, and a subroutine is not left from the inside of a loop: the
interpreter counts its loops wrong there. What is left of a program in blocks does the same, step by
step.
-/

namespace ScOpen

open Outcomes Settling

section

variable {σ : Type}

/-! ## The tokens of a program -/

theorem while_hasText : TokenType.while_.hasText = false := rfl

theorem endWhile_hasText : TokenType.endWhile.hasText = false := rfl

theorem continue_hasText : TokenType.continue_.hasText = false := rfl

theorem breakLoop_hasText : TokenType.breakLoop.hasText = false := rfl

theorem return_hasText : TokenType.return_.hasText = false := rfl

theorem else_hasText : TokenType.else_.hasText = false := rfl

mutual

def Code.tokens : Code σ → List Token
  | .done => []
  | .filler f next => f.tokens ++ next.tokens
  | .statement s next => (s.head :: s.args) ++ next.tokens
  | .ifThen c body rest next =>
      (mark .if_ if_hasText :: c.tokens) ++ body.tokens ++ rest.tokens ++ next.tokens
  | .whileLoop c body next =>
      (mark .while_ while_hasText :: c.tokens) ++ body.tokens ++
        [mark .endWhile endWhile_hasText] ++ next.tokens
  | .forLoop h body next =>
      (mark .for_ for_hasText :: h.tokens) ++ body.tokens ++
        [mark .next next_hasText, word h.name] ++ next.tokens
  | .continue_ next => mark .continue_ continue_hasText :: next.tokens
  | .breakLoop next => mark .breakLoop breakLoop_hasText :: next.tokens
  | .call c next => (mark .gosub gosub_hasText :: c.args) ++ next.tokens
  | .return_ next => mark .return_ return_hasText :: next.tokens

def Branches.tokens : Branches σ → List Token
  | .endIf => [mark .endIf endIf_hasText]
  | .else_ body => mark .else_ else_hasText :: (body.tokens ++ [mark .endIf endIf_hasText])
  | .elseIf c body rest => (mark .elseIf elseIf_hasText :: c.tokens) ++ body.tokens ++ rest.tokens

end

mutual

def Code.Tidy : Code σ → Prop
  | .done => True
  | .filler _ next | .statement _ next | .continue_ next | .breakLoop next | .call _ next
  | .return_ next => next.Tidy
  | .ifThen _ body rest next => body.Tidy ∧ rest.Tidy ∧ next.Tidy
  | .whileLoop _ body next => body.Tidy ∧ next.Tidy
  | .forLoop h body next => nextFree h.name body.tokens = true ∧ body.Tidy ∧ next.Tidy

def Branches.Tidy : Branches σ → Prop
  | .endIf => True
  | .else_ body => body.Tidy
  | .elseIf _ body rest => body.Tidy ∧ rest.Tidy

end

/-! ## The meaning -/

def ForHead.pick (h : ForHead σ) (user : σ) : Option (Entry σ × σ) :=
  (h.enter user).map fun entry => (entry, entry.user)

def ForHead.again (h : ForHead σ) (limit step : ℤ) (user : σ) : Option (Bool × σ) :=
  (h.get user).map fun value =>
    if nextValue value step ≤ limit then (true, h.put (intText (nextValue value step)) user)
    else (false, user)

def whileBehaviour (c : Expr σ) (body : Behaviour σ) : Behaviour σ :=
  choosing c.test fun b =>
    if b then Rounds (only (· ≠ .returns) body) c.test else leaves .falls

def forBehaviour (h : ForHead σ) (body : Behaviour σ) : Behaviour σ :=
  choosing h.pick fun entry =>
    if entry.first > entry.limit then leaves .falls
    else Rounds (only (fun e => e = .falls ∨ e = .continues) body) (h.again entry.limit entry.step)

mutual

def Code.behaviour (subroutine : ℕ → Behaviour σ) : Code σ → Behaviour σ
  | .done => leaves .falls
  | .filler _ next => next.behaviour subroutine
  | .statement s next => andThen (does s.run) (next.behaviour subroutine)
  | .ifThen c body rest next =>
      andThen (choosing c.test fun b =>
        if b then body.behaviour subroutine else rest.behaviour subroutine)
        (next.behaviour subroutine)
  | .whileLoop c body next =>
      andThen (whileBehaviour c (body.behaviour subroutine)) (next.behaviour subroutine)
  | .forLoop h body next =>
      andThen (forBehaviour h (body.behaviour subroutine)) (next.behaviour subroutine)
  | .continue_ _ => leaves .continues
  | .breakLoop _ => leaves .breaks
  | .call c next => andThen (called c.run (subroutine c.target)) (next.behaviour subroutine)
  | .return_ _ => leaves .returns

def Branches.behaviour (subroutine : ℕ → Behaviour σ) : Branches σ → Behaviour σ
  | .endIf => leaves .falls
  | .else_ body => body.behaviour subroutine
  | .elseIf c body rest =>
      choosing c.test fun b =>
        if b then body.behaviour subroutine else rest.behaviour subroutine

end

def subroutines (subs : ℕ → Option (Code σ)) : ℕ → ℕ → Behaviour σ
  | 0, _ => fun _ _ _ => False
  | n + 1, target => fun s e t =>
      ∃ body, subs target = some body ∧ body.behaviour (subroutines subs n) s e t

/-! ## Steps that the interpreter follows -/

/-- A `for` that is passed over is tidy, and no `for` and no subroutine is left from inside. -/
def Machine.Fit (m : Machine σ) : Prop :=
  match m.code with
  | .forLoop h body _ => nextFree h.name body.tokens = true
  | .breakLoop _ => ∀ block rest, innermostLoop m.blocks = some (block, rest) →
      block.isFor = false
  | .return_ _ => ∀ next rest, innermostCall m.blocks = some (next, rest) →
      forDepth m.blocks = forDepth rest ∧ whileDepth m.blocks = whileDepth rest
  | _ => True

def FitStep (subs : ℕ → Option (Code σ)) (m m' : Machine σ) : Prop :=
  m.step subs = some m' ∧ m.Fit

def Block.isBranch : Block σ → Bool
  | .branch _ _ => true
  | _ => false

inductive Arrives (blocks : List (Block σ)) (t : σ) : Exit → Machine σ → Prop
  | falls : Arrives blocks t .falls ⟨.done, blocks, t⟩
  | continues {branches : List (Block σ)} (h : ∀ b ∈ branches, b.isBranch = true)
      (next : Code σ) : Arrives blocks t .continues ⟨.continue_ next, branches ++ blocks, t⟩
  | breaks {branches : List (Block σ)} (h : ∀ b ∈ branches, b.isBranch = true)
      (next : Code σ) : Arrives blocks t .breaks ⟨.breakLoop next, branches ++ blocks, t⟩
  | returns {branches : List (Block σ)} (h : ∀ b ∈ branches, b.isBranch = true)
      (next : Code σ) : Arrives blocks t .returns ⟨.return_ next, branches ++ blocks, t⟩

def LeadsOut (subs : ℕ → Option (Code σ)) (c : Code σ) (s : σ) (e : Exit) (t : σ) : Prop :=
  ∀ blocks, ∃ m, Leads (FitStep subs) ⟨c, blocks, s⟩ m ∧ Arrives blocks t e m

/-! ## From meanings to steps -/

theorem Arrives.of_branch {blocks : List (Block σ)} {rest : Branches σ} {next : Code σ} {t : σ}
    {e : Exit} {m : Machine σ} (h : Arrives (.branch rest next :: blocks) t e m)
    (he : e ≠ .falls) : Arrives blocks t e m := by
  have hmore : ∀ branches : List (Block σ), (∀ b ∈ branches, b.isBranch = true) →
      ∀ b ∈ branches ++ [Block.branch rest next], b.isBranch = true := by
    intro branches h b hb
    rcases List.mem_append.1 hb with hb | hb
    · exact h b hb
    · rw [List.mem_singleton.1 hb]
      rfl
  cases h with
  | falls => exact absurd rfl he
  | continues h next' =>
      rw [List.append_cons]
      exact .continues (hmore _ h) next'
  | breaks h next' =>
      rw [List.append_cons]
      exact .breaks (hmore _ h) next'
  | returns h next' =>
      rw [List.append_cons]
      exact .returns (hmore _ h) next'

def Block.isLoop : Block σ → Bool
  | .whileLoop _ _ _ | .forLoop _ _ _ _ _ => true
  | _ => false

theorem innermostLoop_branches {branches blocks : List (Block σ)} {block : Block σ}
    (h : ∀ b ∈ branches, b.isBranch = true) (hblock : block.isLoop = true) :
    innermostLoop (branches ++ block :: blocks) = some (block, blocks) := by
  induction branches with
  | nil =>
      cases block with
      | whileLoop c body next => rfl
      | forLoop h limit step body next => rfl
      | branch rest next => cases hblock
      | call next => cases hblock
  | cons b branches ih =>
      have hb := h b List.mem_cons_self
      cases b with
      | branch rest next => exact ih fun b hb => h b (List.mem_cons_of_mem _ hb)
      | _ => cases hb

theorem innermostCall_branches {branches blocks : List (Block σ)} {next : Code σ}
    (h : ∀ b ∈ branches, b.isBranch = true) :
    innermostCall (branches ++ .call next :: blocks) = some (next, blocks) ∧
      forDepth (branches ++ .call next :: blocks) = forDepth blocks ∧
      whileDepth (branches ++ .call next :: blocks) = whileDepth blocks := by
  induction branches with
  | nil => exact ⟨rfl, rfl, rfl⟩
  | cons b branches ih =>
      have hb := h b List.mem_cons_self
      cases b with
      | branch rest next => exact ih fun b hb => h b (List.mem_cons_of_mem _ hb)
      | _ => cases hb

variable {subs : ℕ → Option (Code σ)} {subroutine : ℕ → Behaviour σ}

theorem leads_head {m m' z : Machine σ} (hstep : m.step subs = some m') (hfit : m.Fit)
    (h : Leads (FitStep subs) m' z) : Leads (FitStep subs) m z :=
  (Steps.one ⟨hstep, hfit⟩).leads.trans h

theorem leads_refl (m : Machine σ) : Leads (FitStep subs) m m := ⟨0, .refl m⟩

/-- A body that does not leave its loop comes back to it. -/
theorem Arrives.comes_back {blocks : List (Block σ)} {block : Block σ} {t : σ} {e : Exit}
    {m : Machine σ} (h : Arrives (block :: blocks) t e m) (hblock : block.isLoop = true)
    (he : e = .falls ∨ e = .continues) : Leads (FitStep subs) m ⟨.done, block :: blocks, t⟩ := by
  cases h with
  | falls => exact leads_refl _
  | continues h next =>
      refine leads_head ?_ trivial (leads_refl _)
      simp only [Machine.step, innermostLoop_branches h hblock, Option.map_some]
  | breaks => simp at he
  | returns => simp at he

/-- The rounds of a `while` lead to what comes after it. -/
theorem leads_while {c : Expr σ} {body next : Code σ} {bodyBehaviour : Behaviour σ}
    (hbody : ∀ s e t, bodyBehaviour s e t → LeadsOut subs body s e t) {s t : σ} {e : Exit}
    (h : Rounds (only (· ≠ .returns) bodyBehaviour) c.test s e t) :
    e = .falls ∧ ∀ blocks,
      Leads (FitStep subs) ⟨body, .whileLoop c body next :: blocks, s⟩ ⟨next, blocks, t⟩ := by
  have hround : ∀ {s u e}, only (· ≠ .returns) bodyBehaviour s e u → e = .falls ∨ e = .continues →
      ∀ blocks, Leads (FitStep subs) ⟨body, .whileLoop c body next :: blocks, s⟩
        ⟨.whileLoop c body next, blocks, u⟩ := by
    rintro s u e ⟨-, h⟩ hgo blocks
    obtain ⟨m, hleads, harrives⟩ := hbody s e u h (.whileLoop c body next :: blocks)
    refine (hleads.trans (harrives.comes_back rfl hgo)).trans ?_
    exact leads_head rfl trivial (leads_refl _)
  induction h with
  | stop h hgo htest =>
      refine ⟨rfl, fun blocks => (hround h hgo blocks).trans ?_⟩
      refine leads_head ?_ trivial (leads_refl _)
      simp only [Machine.step, htest, Option.map_some]
  | @next s u v t e e' h hgo htest _ ih =>
      obtain ⟨rfl, hrest⟩ := ih
      refine ⟨rfl, fun blocks => (hround h hgo blocks).trans ?_⟩
      have hstep : Machine.step subs ⟨.whileLoop c body next, blocks, u⟩ =
          some ⟨body, .whileLoop c body next :: blocks, v⟩ := by
        simp only [Machine.step, htest, Option.map_some]
      exact leads_head hstep trivial (hrest blocks)
  | @broken s t h =>
      refine ⟨rfl, fun blocks => ?_⟩
      obtain ⟨m, hleads, harrives⟩ := hbody s .breaks t h.2 (.whileLoop c body next :: blocks)
      refine hleads.trans ?_
      cases harrives with
      | breaks h next' =>
          have hloop := @innermostLoop_branches _ _ blocks (.whileLoop c body next) h rfl
          refine leads_head ?_ ?_ (leads_refl _)
          · simp only [Machine.step, hloop, Option.map_some]
            rfl
          · intro block rest hinner
            rw [hloop] at hinner
            cases hinner
            rfl
  | returned h => exact absurd rfl h.1

/-- The rounds of a `for` lead to what comes after it. -/
theorem leads_for {h : ForHead σ} {limit step : ℤ} {body next : Code σ}
    {bodyBehaviour : Behaviour σ}
    (hbody : ∀ s e t, bodyBehaviour s e t → LeadsOut subs body s e t) {s t : σ} {e : Exit}
    (hrounds : Rounds (only (fun e => e = .falls ∨ e = .continues) bodyBehaviour)
      (h.again limit step) s e t) :
    e = .falls ∧ ∀ blocks, Leads (FitStep subs)
      ⟨body, .forLoop h limit step body next :: blocks, s⟩ ⟨next, blocks, t⟩ := by
  have hround : ∀ {s u v e b}, only (fun e => e = .falls ∨ e = .continues) bodyBehaviour s e u →
      h.again limit step u = some (b, v) → ∀ blocks,
      Leads (FitStep subs) ⟨body, .forLoop h limit step body next :: blocks, s⟩
        (if b then ⟨body, .forLoop h limit step body next :: blocks, v⟩ else ⟨next, blocks, v⟩) := by
    rintro s u v e b ⟨hgo, hrun⟩ hagain blocks
    obtain ⟨m, hleads, harrives⟩ :=
      hbody s e u hrun (.forLoop h limit step body next :: blocks)
    obtain ⟨value, hget, hvalue⟩ := Option.map_eq_some_iff.1 hagain
    have hstep : Machine.step subs ⟨.done, .forLoop h limit step body next :: blocks, u⟩ =
        some (if b then ⟨body, .forLoop h limit step body next :: blocks, v⟩
          else ⟨next, blocks, v⟩) := by
      simp only [Machine.step, hget, Option.map_some]
      by_cases hle : nextValue value step ≤ limit
      · rw [if_pos hle] at hvalue ⊢
        cases hvalue
        rfl
      · rw [if_neg hle] at hvalue ⊢
        cases hvalue
        rfl
    refine (hleads.trans (harrives.comes_back rfl hgo)).trans ?_
    exact leads_head hstep trivial (leads_refl _)
  induction hrounds with
  | stop h hgo htest => exact ⟨rfl, fun blocks => hround h htest blocks⟩
  | next h hgo htest _ ih =>
      obtain ⟨rfl, hrest⟩ := ih
      exact ⟨rfl, fun blocks => (hround h htest blocks).trans (hrest blocks)⟩
  | broken h => simp [only] at h
  | returned h => simp [only] at h

def ChosenLeads (subs : ℕ → Option (Code σ)) (choice : Option (Option (Code σ × Branches σ) × σ))
    (e : Exit) (t : σ) : Prop :=
  (choice = some (none, t) ∧ e = .falls) ∨
    ∃ body rest u, choice = some (some (body, rest), u) ∧ LeadsOut subs body u e t

theorem leads_if {c : Expr σ} {body next : Code σ} {rest : Branches σ} {s t : σ} {e : Exit}
    (h : ChosenLeads subs (chooseBranch c body rest s) e t) (blocks : List (Block σ)) :
    (e = .falls → Leads (FitStep subs) ⟨.ifThen c body rest next, blocks, s⟩ ⟨next, blocks, t⟩) ∧
      (e ≠ .falls → ∃ m, Leads (FitStep subs) ⟨.ifThen c body rest next, blocks, s⟩ m ∧
        Arrives blocks t e m) := by
  rcases h with ⟨hchoose, rfl⟩ | ⟨body', rest', u, hchoose, hleads⟩
  · refine ⟨fun _ => leads_head ?_ trivial (leads_refl _), fun h => absurd rfl h⟩
    simp only [Machine.step, hchoose, Option.map_some]
  · obtain ⟨m, hbody, harrives⟩ := hleads (.branch rest' next :: blocks)
    have hstep : Machine.step subs ⟨.ifThen c body rest next, blocks, s⟩ =
        some ⟨body', .branch rest' next :: blocks, u⟩ := by
      simp only [Machine.step, hchoose, Option.map_some]
    have hinside := leads_head hstep trivial hbody
    constructor
    · rintro rfl
      cases harrives
      exact hinside.trans (leads_head rfl trivial (leads_refl _))
    · intro he
      exact ⟨m, hinside, harrives.of_branch he⟩

/-- What leads to the code that comes next, or out of the code, leads out where the rest does. -/
theorem leadsOut_andThen {c next : Code σ} {a : Behaviour σ} {s t : σ} {e : Exit}
    (h : andThen a (next.behaviour subroutine) s e t)
    (hnext : ∀ {s e t}, next.behaviour subroutine s e t → LeadsOut subs next s e t)
    (hfalls : ∀ {u}, a s .falls u → ∀ blocks, Leads (FitStep subs) ⟨c, blocks, s⟩ ⟨next, blocks, u⟩)
    (hout : e ≠ .falls → a s e t → LeadsOut subs c s e t) : LeadsOut subs c s e t := by
  rcases h with ⟨u, ha, hrest⟩ | ⟨he, ha⟩
  · intro blocks
    obtain ⟨m, hleads, harrives⟩ := hnext hrest blocks
    exact ⟨m, (hfalls ha blocks).trans hleads, harrives⟩
  · exact hout he ha

def SubroutinesLead (subs : ℕ → Option (Code σ)) (subroutine : ℕ → Behaviour σ) : Prop :=
  ∀ target s t, subroutine target s .returns t →
    ∃ body, subs target = some body ∧ LeadsOut subs body s .returns t

mutual

/-- What a program means, it does step by step. -/
theorem Code.leads (hsub : SubroutinesLead subs subroutine) (c : Code σ)
    (htidy : c.Tidy) {s t : σ} {e : Exit} (h : c.behaviour subroutine s e t) : LeadsOut subs c s e t := by
  cases c with
  | done =>
      obtain ⟨rfl, rfl⟩ := h
      intro blocks
      exact ⟨_, leads_refl _, .falls⟩
  | filler f next =>
      intro blocks
      obtain ⟨m, hleads, harrives⟩ := next.leads hsub htidy h blocks
      exact ⟨m, leads_head rfl trivial hleads, harrives⟩
  | statement st next =>
      refine leadsOut_andThen h (fun h => next.leads hsub htidy h) ?_ fun he ha => absurd ha.1 he
      rintro u ⟨-, hrun⟩ blocks
      refine leads_head ?_ trivial (leads_refl _)
      simp only [Machine.step, hrun, Option.map_some]
  | ifThen c body rest next =>
      have hchosen : ∀ {e t}, choosing c.test (fun b =>
          if b then body.behaviour subroutine else rest.behaviour subroutine) s e t →
          ChosenLeads subs (chooseBranch c body rest s) e t := by
        rintro e t ⟨b, u, htest, harm⟩
        rw [chooseBranch, htest]
        cases b with
        | true => exact .inr ⟨body, rest, u, rfl, body.leads hsub htidy.1 harm⟩
        | false => exact rest.leads hsub htidy.2.1 harm
      refine leadsOut_andThen h (fun h => next.leads hsub htidy.2.2 h) ?_ ?_
      · intro u ha blocks
        exact (leads_if (hchosen ha) blocks).1 rfl
      · intro he ha blocks
        exact (leads_if (hchosen ha) blocks).2 he
  | whileLoop c body next =>
      have hrounds : ∀ {s e t}, whileBehaviour c (body.behaviour subroutine) s e t → e = .falls ∧
          ∀ blocks, Leads (FitStep subs) ⟨.whileLoop c body next, blocks, s⟩
            ⟨next, blocks, t⟩ := by
        rintro s e t ⟨b, u, htest, harm⟩
        cases b with
        | false =>
            obtain ⟨rfl, rfl⟩ := harm
            refine ⟨rfl, fun blocks => leads_head ?_ trivial (leads_refl _)⟩
            simp only [Machine.step, htest, Option.map_some]
        | true =>
            have hleads := @leads_while _ subs c body next _
              (fun _ _ _ h => body.leads hsub htidy.1 h) _ _ _ harm
            refine ⟨hleads.1, fun blocks => ?_⟩
            have hstep : Machine.step subs ⟨.whileLoop c body next, blocks, s⟩ =
                some ⟨body, .whileLoop c body next :: blocks, u⟩ := by
              simp only [Machine.step, htest, Option.map_some]
            exact leads_head hstep trivial (hleads.2 blocks)
      exact leadsOut_andThen h (fun h => next.leads hsub htidy.2 h) (fun ha => (hrounds ha).2)
        fun he ha => absurd (hrounds ha).1 he
  | forLoop head body next =>
      have hrounds : ∀ {s e t}, forBehaviour head (body.behaviour subroutine) s e t → e = .falls ∧
          ∀ blocks, Leads (FitStep subs) ⟨.forLoop head body next, blocks, s⟩
            ⟨next, blocks, t⟩ := by
        rintro s e t ⟨entry, u, hpick, harm⟩
        obtain ⟨entry', henter, hentry⟩ := Option.map_eq_some_iff.1 hpick
        cases hentry
        by_cases hskip : entry.first > entry.limit
        · rw [if_pos hskip] at harm
          obtain ⟨rfl, rfl⟩ := harm
          refine ⟨rfl, fun blocks => leads_head ?_ htidy.1 (leads_refl _)⟩
          simp only [Machine.step, henter, Option.map_some, if_pos hskip]
        · rw [if_neg hskip] at harm
          have hleads := @leads_for _ subs head entry.limit entry.step body next _
            (fun _ _ _ h => body.leads hsub htidy.2.1 h) _ _ _ harm
          refine ⟨hleads.1, fun blocks => ?_⟩
          have hstep : Machine.step subs ⟨.forLoop head body next, blocks, s⟩ =
              some ⟨body, .forLoop head entry.limit entry.step body next :: blocks,
                entry.user⟩ := by
            simp only [Machine.step, henter, Option.map_some, if_neg hskip]
          exact leads_head hstep htidy.1 (hleads.2 blocks)
      exact leadsOut_andThen h (fun h => next.leads hsub htidy.2.2 h) (fun ha => (hrounds ha).2)
        fun he ha => absurd (hrounds ha).1 he
  | continue_ next =>
      obtain ⟨rfl, rfl⟩ := h
      intro blocks
      exact ⟨_, leads_refl _, .continues (fun _ hb => absurd hb List.not_mem_nil) next⟩
  | breakLoop next =>
      obtain ⟨rfl, rfl⟩ := h
      intro blocks
      exact ⟨_, leads_refl _, .breaks (fun _ hb => absurd hb List.not_mem_nil) next⟩
  | return_ next =>
      obtain ⟨rfl, rfl⟩ := h
      intro blocks
      exact ⟨_, leads_refl _, .returns (fun _ hb => absurd hb List.not_mem_nil) next⟩
  | call c next =>
      refine leadsOut_andThen h (fun h => next.leads hsub htidy h) ?_ fun he ha => absurd ha.1 he
      rintro t' ⟨-, u, hrun, hreturns⟩ blocks
      obtain ⟨body, hbody, hleads⟩ := hsub c.target u t' hreturns
      obtain ⟨m, hinside, harrives⟩ := hleads (.call next :: blocks)
      have hstep : Machine.step subs ⟨.call c next, blocks, s⟩ =
          some ⟨body, .call next :: blocks, u⟩ := by
        simp only [Machine.step, hrun, hbody, Option.bind_eq_bind, Option.bind_some]
        rfl
      refine leads_head hstep trivial (hinside.trans ?_)
      cases harrives with
      | returns hbranches next' =>
          obtain ⟨hinner, hfors, hwhiles⟩ := @innermostCall_branches _ _ blocks next hbranches
          refine leads_head ?_ ?_ (leads_refl _)
          · simp only [Machine.step, hinner, Option.map_some]
          · intro next'' rest hcall
            rw [hinner] at hcall
            cases hcall
            exact ⟨hfors, hwhiles⟩

theorem Branches.leads (hsub : SubroutinesLead subs subroutine) (b : Branches σ)
    (htidy : b.Tidy) {s t : σ} {e : Exit} (h : b.behaviour subroutine s e t) : ChosenLeads subs (b.choose s) e t := by
  cases b with
  | endIf =>
      obtain ⟨rfl, rfl⟩ := h
      exact .inl ⟨rfl, rfl⟩
  | else_ body => exact .inr ⟨body, .endIf, s, rfl, body.leads hsub htidy h⟩
  | elseIf c body rest =>
      obtain ⟨b, u, htest, harm⟩ := h
      rw [Branches.choose, htest]
      cases b with
      | true => exact .inr ⟨body, rest, u, rfl, body.leads hsub htidy.1 harm⟩
      | false => exact rest.leads hsub htidy.2 harm

end

end

end ScOpen
