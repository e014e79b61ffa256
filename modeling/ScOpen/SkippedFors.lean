import ScOpen.ControlEffects
import ScOpen.ForRounds

/-!
# A `for` that is not entered

Its way behind the loop is a scan for a `next` with its variable, whatever loops are in between.
The counter is raised before the head is read and lowered when the first value is above the limit,
also where the head could not be read.
-/

namespace ScOpen

/-! ## The scan -/

inductive ForBody where
  | done
  | token (t : Token) (ht : t.type ≠ .nullToken ∧ t.type ≠ .for_ ∧ t.type ≠ .next) (rest : ForBody)
  | loop (f n w : Token) (hf : f.type = .for_) (hn : n.type = .next) (hw : w.type ≠ .nullToken)
      (body rest : ForBody)

def ForBody.tokens : ForBody → List Token
  | .done => []
  | .token t _ rest => t :: rest.tokens
  | .loop f n w _ _ _ body rest => f :: (body.tokens ++ n :: w :: rest.tokens)

def ForBody.nextNames : ForBody → List Bytes
  | .done => []
  | .token _ _ rest => rest.nextNames
  | .loop _ _ w _ _ _ body rest => body.nextNames ++ cString w.text :: rest.nextNames

theorem forEnd_next {name : Bytes} {n w : Token} (hn : n.type = .next) (hw : w.type ≠ .nullToken)
    (ts : List Token) :
    forEnd name false (n :: w :: ts) =
      if cString w.text = cString name then some 1
      else (forEnd name false ts).map (· + 2) := by
  simp only [forEnd, hn, reduceCtorEq, if_false, Bool.false_eq_true, decide_true, hw, if_true]
  by_cases hname : cString w.text = cString name
  · rw [if_pos hname, if_pos hname]
    rfl
  · rw [if_neg hname, if_neg hname, Option.map_map]
    rfl

/-- The scan goes over a body without its name, and ends inside of one that has it. -/
theorem forEnd_body (name : Bytes) (b : ForBody) (ts : List Token) :
    (cString name ∉ b.nextNames →
      forEnd name false (b.tokens ++ ts) = (forEnd name false ts).map (· + b.tokens.length)) ∧
    (cString name ∈ b.nextNames →
      ∃ k, forEnd name false (b.tokens ++ ts) = some k ∧ k < b.tokens.length) := by
  induction b generalizing ts with
  | done => exact ⟨fun _ => by simp [ForBody.tokens], fun h => absurd h List.not_mem_nil⟩
  | token t ht rest ih =>
      obtain ⟨hover, hends⟩ := ih ts
      have hstep := @forEnd_of_not_next name _ (rest.tokens ++ ts) ht.1 ht.2.2
      rw [ForBody.tokens, List.cons_append, hstep, List.length_cons]
      constructor
      · intro hname
        rw [hover hname, Option.map_map]
        rfl
      · intro hname
        obtain ⟨k, hk, hlt⟩ := hends hname
        exact ⟨k + 1, by rw [hk]; rfl, Nat.succ_lt_succ hlt⟩
  | loop f n w hf hn hw body rest ihbody ihrest =>
      obtain ⟨hover, hends⟩ := ihbody (n :: w :: (rest.tokens ++ ts))
      obtain ⟨hoverRest, hendsRest⟩ := ihrest ts
      have hf' : f.type ≠ .nullToken ∧ f.type ≠ .next := by
        rw [hf]
        decide
      have hstep : forEnd name false ((ForBody.loop f n w hf hn hw body rest).tokens ++ ts) =
          (forEnd name false (body.tokens ++ n :: w :: (rest.tokens ++ ts))).map (· + 1) := by
        rw [← forEnd_of_not_next _ hf'.1 hf'.2]
        simp [ForBody.tokens]
      have hlength : (ForBody.loop f n w hf hn hw body rest).tokens.length =
          body.tokens.length + rest.tokens.length + 3 := by
        simp only [ForBody.tokens, List.length_cons, List.length_append]
        omega
      have hnames : cString name ∈ (ForBody.loop f n w hf hn hw body rest).nextNames ↔
          cString name ∈ body.nextNames ∨ cString w.text = cString name ∨
            cString name ∈ rest.nextNames := by
        rw [ForBody.nextNames, List.mem_append, List.mem_cons, eq_comm (a := cString name)]
      rw [hstep, hlength, hnames]
      by_cases hbody : cString name ∈ body.nextNames
      · refine ⟨fun hnot => absurd (.inl hbody) hnot, fun _ => ?_⟩
        obtain ⟨k, hk, hlt⟩ := hends hbody
        exact ⟨k + 1, by rw [hk]; rfl, by omega⟩
      rw [hover hbody, forEnd_next hn hw]
      by_cases hw' : cString w.text = cString name
      · rw [if_pos hw']
        exact ⟨fun hnot => absurd (.inr (.inl hw')) hnot,
          fun _ => ⟨1 + body.tokens.length + 1, rfl, by omega⟩⟩
      rw [if_neg hw']
      constructor
      · intro hnot
        rw [hoverRest fun h => hnot (.inr (.inr h))]
        simp only [Option.map_map]
        congr 1
        funext k
        simp only [Function.comp_apply]
        omega
      · rintro (h | h | h)
        · exact absurd h hbody
        · exact absurd h hw'
        · obtain ⟨k, hk, hlt⟩ := hendsRest h
          exact ⟨k + 2 + body.tokens.length + 1, by rw [hk]; rfl, by omega⟩

/-! ## The head -/

section

variable {σ : Type} (lang : Language σ)

/-- The first value behind the name, where the head can be read up to it, and the program behind
it. -/
def headFirst (type : TokenType) (name : Bytes) (p : Running σ) : Option (ℤ × Running σ) :=
  if type ≠ .identifier then none
  else
    let (type, _, p) := getToken lang p
    if type ≠ .assign then none
    else
      let (iret, value, p) := evaluate lang p
      if iret ≠ 0 then none
      else
        some (scanInt value,
          p.setUser (lang.variablePut .user p.programIdx name value p.env.user))

def headLimit (p : Running σ) : Option ℤ :=
  let (type, _, p) := getToken lang p
  if type ≠ .to_ then none
  else
    let (iret, value, _) := evaluate lang p
    if iret ≠ 0 then none else some (scanInt value)

/-- The first value is above the limit, or above 0 where no limit can be read. -/
def FirstAbove (p : Running σ) : Prop :=
  let (type, name, p) := getToken lang p
  ∃ x q, headFirst lang type name p = some (x, q) ∧ (headLimit lang q).getD 0 < x

def headRead (p : Running σ) : Bytes × ℕ × ℤ × ℤ × Running σ :=
  let c := p.env.control
  let n := c.forNest + 1
  let (type, name, p) := getToken lang (p.setControl { c with forNest := n })
  (name, forHead lang n type name p)

variable {lang}

theorem cmdFor_eq (p : Running σ) :
    cmdFor lang p = forSkip (headRead lang p).1 (headRead lang p).2 := rfl

theorem getProgramTokenNoEval_setControl (c : Control) (p : Running σ) :
    getProgramTokenNoEval (p.setControl c) =
      ((getProgramTokenNoEval p).1, (getProgramTokenNoEval p).2.1,
        (getProgramTokenNoEval p).2.2.setControl c) := by
  obtain ⟨tokens, i, saved, env⟩ := p
  simp only [getProgramTokenNoEval, getProgramToken, Running.setControl]
  cases tokens[i]? with
  | none => rfl
  | some t =>
      dsimp only
      by_cases ht : t.type = .variable_
      · rw [if_pos ht, if_pos ht]
      · rw [if_neg ht, if_neg ht]

theorem getToken_setControl (c : Control) (p : Running σ) :
    getToken lang (p.setControl c) =
      ((getToken lang p).1, (getToken lang p).2.1, (getToken lang p).2.2.setControl c) := by
  simp only [getToken, getProgramTokenNoEval_setControl]
  rfl

theorem evaluate_setControl (c : Control) (p : Running σ) :
    evaluate lang (p.setControl c) =
      ((evaluate lang p).1, (evaluate lang p).2.1, (evaluate lang p).2.2.setControl c) := rfl

/-- The first value and the limit do not depend on the counters. -/
theorem forTo_values (n x : ℤ) (c : Control) (p : Running σ) :
    (evaluate lang p).1 = 0 ∧ (forTo lang n x (p.setControl c)).2.1 = x ∧
        (forTo lang n x (p.setControl c)).2.2.1 = scanInt (evaluate lang p).2.1 ∨
      (evaluate lang p).1 ≠ 0 ∧ (forTo lang n x (p.setControl c)).2.1 = x ∧
        (forTo lang n x (p.setControl c)).2.2.1 = 0 := by
  rw [forTo, evaluate_setControl]
  by_cases hiret : (evaluate lang p).1 ≠ 0
  · exact .inr ⟨hiret, by simp only [if_pos hiret], by simp only [if_pos hiret]⟩
  · refine .inl ⟨not_not.1 hiret, ?_, ?_⟩
    · simp only [if_neg hiret, forStep]
    · simp only [if_neg hiret, forStep]

theorem headLimit_values (n x : ℤ) (c : Control) (p : Running σ) :
    (let (type, _, p) := getToken lang (p.setControl c)
      if type ≠ TokenType.to_ then (1, x, 0, p) else forTo lang n x p).2.1 = x ∧
    (let (type, _, p) := getToken lang (p.setControl c)
      if type ≠ TokenType.to_ then (1, x, 0, p) else forTo lang n x p).2.2.1 =
        (headLimit lang p).getD 0 := by
  rw [getToken_setControl, headLimit]
  dsimp only
  by_cases hto : (getToken lang p).1 ≠ .to_
  · rw [if_pos hto, if_pos hto]
    exact ⟨rfl, rfl⟩
  rw [if_neg hto, if_neg hto]
  rcases @forTo_values _ lang n x c (getToken lang p).2.2 with
    ⟨hiret, hx, hy⟩ | ⟨hiret, hx, hy⟩
  · rw [if_neg (not_not.2 hiret)]
    exact ⟨hx, hy⟩
  · rw [if_pos hiret]
    exact ⟨hx, hy⟩

theorem forHead_values (n : ℤ) (type : TokenType) (name : Bytes) (c : Control) (p : Running σ) :
    (forHead lang n type name (p.setControl c)).2.1 =
        ((headFirst lang type name p).map (·.1)).getD 0 ∧
      (forHead lang n type name (p.setControl c)).2.2.1 =
        ((headFirst lang type name p).elim 0 fun r => (headLimit lang r.2).getD 0) := by
  rw [headFirst, forHead]
  by_cases hname : type ≠ .identifier
  · rw [if_pos hname, if_pos hname]
    exact ⟨rfl, rfl⟩
  rw [if_neg hname, if_neg hname, getToken_setControl]
  obtain ⟨t, -, p⟩ := getToken lang p
  dsimp only
  by_cases hassign : t ≠ .assign
  · rw [if_pos hassign, if_pos hassign]
    exact ⟨rfl, rfl⟩
  rw [if_neg hassign, if_neg hassign, evaluate_setControl]
  obtain ⟨iret, value, p⟩ := evaluate lang p
  dsimp only
  by_cases hiret : iret ≠ 0
  · rw [if_pos hiret, if_pos hiret]
    exact ⟨rfl, rfl⟩
  rw [if_neg hiret, if_neg hiret]
  exact headLimit_values n (scanInt value) c
    (p.setUser (lang.variablePut .user p.programIdx name value p.env.user))

theorem firstAbove_iff (p : Running σ) :
    FirstAbove lang p ↔ (headRead lang p).2.2.2.1 < (headRead lang p).2.2.1 := by
  rw [headRead, getToken_setControl, FirstAbove]
  dsimp only
  obtain ⟨hx, hy⟩ := forHead_values (p.env.control.forNest + 1) (getToken lang p).1
    (getToken lang p).2.1 { p.env.control with forNest := p.env.control.forNest + 1 }
    (getToken lang p).2.2
  rw [hx, hy]
  cases headFirst lang (getToken lang p).1 (getToken lang p).2.1 (getToken lang p).2.2 with
  | none =>
      constructor
      · rintro ⟨x, q, h, -⟩
        cases h
      · exact fun h => absurd h (lt_irrefl _)
  | some r =>
      constructor
      · rintro ⟨x, q, h, hlt⟩
        cases h
        exact hlt
      · exact fun h => ⟨r.1, r.2, rfl, h⟩

/-! ## The counter -/

theorem forStep_forNest (n x y : ℤ) (p : Running σ) :
    (forStep lang n x y p).2.2.2.env.control.forNest = p.env.control.forNest := by
  obtain ⟨step, idx, hcontrol⟩ := forStep_control lang n x y p
  rw [hcontrol]

theorem forTo_forNest (n x : ℤ) (p : Running σ) :
    (forTo lang n x p).2.2.2.env.control.forNest = p.env.control.forNest := by
  rw [forTo]
  by_cases hiret : (evaluate lang p).1 ≠ 0
  · simp only [if_pos hiret, evaluate_control]
  · simp only [if_neg hiret, forStep_forNest, Running.setControl_control, evaluate_control]

theorem forHead_forNest (n : ℤ) (type : TokenType) (name : Bytes) (p : Running σ) :
    (forHead lang n type name p).2.2.2.env.control.forNest = p.env.control.forNest := by
  rw [forHead]
  by_cases hname : type ≠ .identifier
  · rw [if_pos hname]
  rw [if_neg hname]
  have hget := getToken_env lang p
  generalize getToken lang p = g at hget ⊢
  obtain ⟨t, _, q⟩ := g
  dsimp only at hget ⊢
  rw [← hget]
  by_cases hassign : t ≠ .assign
  · rw [if_pos hassign]
  rw [if_neg hassign]
  have hcontrol : (evaluate lang q).2.2.env.control = q.env.control := evaluate_control q
  generalize evaluate lang q = g at hcontrol ⊢
  obtain ⟨iret, value, r⟩ := g
  dsimp only at hcontrol ⊢
  rw [← hcontrol]
  by_cases hiret : iret ≠ 0
  · rw [if_pos hiret]
  rw [if_neg hiret]
  by_cases hto : (getToken lang
      (r.setUser (lang.variablePut .user r.programIdx name value r.env.user))).1 ≠ .to_
  · rw [if_pos hto, getToken_env]
    rfl
  · rw [if_neg hto, forTo_forNest, getToken_env]
    rfl

theorem forSkip_forNest (name : Bytes) (iret : ℕ) (x y : ℤ) (p : Running σ) :
    (forSkip name (iret, x, y, p)).2.env.control.forNest =
      if y < x then p.env.control.forNest - 1 else p.env.control.forNest := by
  rw [forSkip]
  dsimp only
  by_cases hlt : y < x
  · rw [if_pos hlt, if_pos hlt]
    cases forEnd name false (Running.ahead _) with
    | none => rfl
    | some k => exact congrArg Control.forNest (readAfter_control k _)
  · rw [if_neg hlt, if_neg hlt]

theorem headRead_forNest (p : Running σ) :
    (headRead lang p).2.2.2.2.env.control.forNest = p.env.control.forNest + 1 := by
  rw [headRead]
  dsimp only
  rw [forHead_forNest, getToken_env]
  rfl

/-- Every `for` raises the counter by one, but where its first value is above the limit. -/
theorem cmdFor_forNest (p : Running σ) :
    (cmdFor lang p).2.env.control.forNest = p.env.control.forNest ↔ FirstAbove lang p := by
  rw [firstAbove_iff, cmdFor_eq, forSkip_forNest, headRead_forNest]
  by_cases hlt : (headRead lang p).2.2.2.1 < (headRead lang p).2.2.1
  · rw [if_pos hlt]
    exact ⟨fun _ => hlt, fun _ => by omega⟩
  · rw [if_neg hlt]
    exact ⟨fun h => by omega, fun h => absurd h hlt⟩

/-! ## Where it goes on -/

theorem forEnd_lt {name : Bytes} {flag : Bool} {ts : List Token} {k : ℕ}
    (h : forEnd name flag ts = some k) : k < ts.length := by
  induction ts generalizing flag k with
  | nil => cases h
  | cons t ts ih =>
      have hback : ∀ {flag'}, (forEnd name flag' ts).map (· + 1) = some k →
          k < (t :: ts).length := by
        intro flag' hmap
        obtain ⟨j, hj, rfl⟩ := Option.map_eq_some_iff.1 hmap
        exact Nat.succ_lt_succ (ih hj)
      rw [forEnd] at h
      split_ifs at h with hnull hflag hname
      · cases h
        exact Nat.succ_pos _
      · exact hback h
      · exact hback h

theorem readAfter_programIdx {k : ℕ} {p : Running σ} (h : k < p.ahead.length) :
    (readAfter k p).2.2.programIdx = p.programIdx + k + 1 := by
  have hlt : p.programIdx + k < p.tokens.length := by
    rw [Running.ahead, List.length_drop] at h
    omega
  obtain ⟨t, ht⟩ : ∃ t, p.tokens[p.programIdx + k]? = some t := ⟨_, List.getElem?_eq_getElem hlt⟩
  simp only [readAfter, getProgramTokenNoEval, getProgramToken, setProgramTokenIdx, ht]
  by_cases htype : t.type = .variable_
  · rw [if_pos htype]
  · rw [if_neg htype]

theorem cmdFor_skipped {p q : Running σ} {name : Bytes} {x y : ℤ} {k : ℕ}
    (hhead : headRead lang p = (name, 0, x, y, q)) (hlt : y < x)
    (hend : forEnd name false q.ahead = some k) :
    (cmdFor lang p).1 = 0 ∧ (cmdFor lang p).2.programIdx = q.programIdx + k + 1 := by
  rw [cmdFor_eq, hhead, forSkip]
  dsimp only
  rw [if_pos hlt]
  have hend' : forEnd name false (q.setControl
      { q.env.control with forNest := q.env.control.forNest - 1 }).ahead = some k := hend
  rw [hend']
  exact ⟨rfl, readAfter_programIdx (forEnd_lt hend')⟩

/-- A loop that is not entered is left behind its own `next` exactly when no loop in its body has
its variable. A `for` with an error leaves the counter as it was exactly when its first value was
read and is above the limit. -/
theorem skipped_for_right_iff (lang : Language σ) :
    (∀ (p q : Running σ) (name : Bytes) (x y : ℤ) (b : ForBody) (n w : Token) (rest : List Token),
      headRead lang p = (name, 0, x, y, q) → y < x → q.ahead = b.tokens ++ n :: w :: rest →
      n.type = .next → w.type ≠ .nullToken → cString w.text = cString name →
      ((cmdFor lang p).1 = 0 ∧ (cmdFor lang p).2.programIdx = q.programIdx + b.tokens.length + 2 ∧
        (cmdFor lang p).2.env.control.forNest = p.env.control.forNest ↔
          cString name ∉ b.nextNames)) ∧
      ∀ p : Running σ, (cmdFor lang p).1 ≠ 0 →
        ((cmdFor lang p).2.env.control.forNest = p.env.control.forNest ↔ FirstAbove lang p) := by
  refine ⟨?_, fun p _ => cmdFor_forNest p⟩
  intro p q name x y b n w rest hhead hlt hahead hn hw hname
  obtain ⟨hover, hends⟩ := forEnd_body name b (n :: w :: rest)
  rw [← hahead] at hover hends
  constructor
  · rintro ⟨-, hidx, -⟩ hmem
    obtain ⟨k, hk, hklt⟩ := hends hmem
    obtain ⟨-, hidx'⟩ := cmdFor_skipped hhead hlt hk
    omega
  · intro hmem
    have hend : forEnd name false q.ahead = some (1 + b.tokens.length) := by
      rw [hover hmem, forEnd_next hn hw, if_pos hname]
      rfl
    obtain ⟨hstatus, hidx⟩ := cmdFor_skipped hhead hlt hend
    have habove : FirstAbove lang p := by
      rw [firstAbove_iff, hhead]
      exact hlt
    exact ⟨hstatus, by omega, (cmdFor_forNest p).2 habove⟩

end

/-! ## A loop in a loop -/

/-- `i = first to limit` -/
def headTokens (first limit : Bytes) : List Token :=
  [word (cstr "i"), mark .assign assign_hasText, word first, mark .to_ to_hasText, word limit]

theorem word_bodyToken (text : Bytes) :
    (word text).type ≠ .nullToken ∧ (word text).type ≠ .for_ ∧ (word text).type ≠ .next :=
  ⟨nofun, nofun, nofun⟩

/-- The body `for v = 1 to 1 / next v`. -/
def innerLoop (v : Bytes) : ForBody :=
  .loop (mark .for_ for_hasText) (mark .next next_hasText) (word v) rfl rfl nofun
    (.token (word v) (word_bodyToken v) (.token (mark .assign assign_hasText) (by decide)
      (.token (word (cstr "1")) (word_bodyToken _) (.token (mark .to_ to_hasText) (by decide)
        (.token (word (cstr "1")) (word_bodyToken _) .done))))) .done

/-- `for i = 2 to 1 / for v = 1 to 1 / next v / next i`, behind its `for` -/
def nestedLoops (v : Bytes) : Running Bytes :=
  ⟨mark .for_ for_hasText :: headTokens (cstr "2") (cstr "1") ++ (innerLoop v).tokens ++
    [mark .next next_hasText, word (cstr "i")], 1, 0, ⟨zeroControl, []⟩⟩

theorem skipped_for_right_nested :
    (cmdFor oneLanguage (nestedLoops (cstr "j"))).1 = 0 ∧
      (cmdFor oneLanguage (nestedLoops (cstr "j"))).2.programIdx = 16 ∧
      (cmdFor oneLanguage (nestedLoops (cstr "j"))).2.env.control.forNest = 0 :=
  ((skipped_for_right_iff oneLanguage).1 (nestedLoops (cstr "j")) _ _ _ _ (innerLoop (cstr "j")) _ _ []
    rfl (by decide) rfl rfl (by decide) rfl).2 (by decide)

/-- `for i = 2 to 1 / for i = 1 to 1 / next i / next i`, and a `for` that stands alone -/
theorem skipped_for_not_always_right :
    ¬(∀ (p q : Running Bytes) (name : Bytes) (x y : ℤ) (b : ForBody) (n w : Token)
      (rest : List Token), headRead oneLanguage p = (name, 0, x, y, q) → y < x →
      q.ahead = b.tokens ++ n :: w :: rest → n.type = .next → w.type ≠ .nullToken →
      cString w.text = cString name →
      (cmdFor oneLanguage p).1 = 0 ∧
        (cmdFor oneLanguage p).2.programIdx = q.programIdx + b.tokens.length + 2 ∧
        (cmdFor oneLanguage p).2.env.control.forNest = p.env.control.forNest) ∧
    ¬∀ p : Running Bytes, (cmdFor oneLanguage p).1 ≠ 0 →
      (cmdFor oneLanguage p).2.env.control.forNest = p.env.control.forNest := by
  constructor
  · intro h
    have hright := h (nestedLoops (cstr "i")) _ _ _ _ (innerLoop (cstr "i")) _ _ [] rfl (by decide)
      rfl rfl (by decide) rfl
    have hidx : (cmdFor oneLanguage (nestedLoops (cstr "i"))).2.programIdx = 14 := rfl
    exact absurd (hidx.symm.trans hright.2.1) (by decide)
  · intro h
    have hright := h ⟨[mark .for_ for_hasText], 1, 0, ⟨zeroControl, []⟩⟩ (by decide)
    exact absurd hright (by decide)

end ScOpen
