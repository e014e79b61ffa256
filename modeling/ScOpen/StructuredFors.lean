import ScOpen.StructuredLoops

/-!
# The `for` of the interpreter in a structured program
-/

namespace ScOpen

section

variable {σ : Type} {lang : Language σ} {tokens : List Token}

theorem ForHead.step_segment {h : ForHead σ} {i j : ℕ} (hh : h.Stands lang tokens i j) {e : Expr σ}
    (he : h.step = some e) :
    [mark .step rfl] <+:
      tokens.drop (i + 2 + h.first.tokens.length + 1 + h.limit.tokens.length) := by
  have htokens := hh.present
  rw [ForHead.tokens, he] at htokens
  have hlimit := segment_drop (segment_tail (segment_drop (segment_tail (segment_tail htokens))))
  exact (List.prefix_append [_] _).trans hlimit

/-- A token that is read and put back. -/
theorem getToken_put (lang : Language σ) (tokens : List Token) (i saved : ℕ) (env : InterpEnv σ) :
    ∃ type text q, getToken lang ⟨tokens, i, saved, env⟩ = (type, text, q) ∧
      type = (tokens[i]?.map Token.type).getD .nullToken ∧
      putProgramToken q = ⟨tokens, i, i, env⟩ := by
  cases hget : tokens[i]? with
  | none =>
      refine ⟨.nullToken, [], ⟨tokens, i, i, env⟩, ?_, rfl, rfl⟩
      simp only [getToken, getProgramTokenNoEval, getProgramToken, hget, reduceCtorEq, if_false]
  | some t =>
      have hhead : [t] <+: tokens.drop i := by
        obtain ⟨hlt, ht⟩ := List.getElem?_eq_some_iff.1 hget
        rw [List.drop_eq_getElem_cons hlt, ht]
        exact List.prefix_append [t] _
      obtain ⟨text, -, h⟩ := getToken_segment lang hhead saved env
      exact ⟨t.type, text, _, h, rfl, rfl⟩

theorem forTo_stands {h : ForHead σ} {i j : ℕ} (hh : h.Stands lang tokens i j)
    {user user₁ user₂ : σ} {limit step : Bytes} (hlimit : h.limit.eval user = some (limit, user₁))
    (hstep : h.step.elim (some ([chr '1'], user₁)) (·.eval user₁) = some (step, user₂))
    (n x : ℤ) (saved : ℕ) (control : Control) :
    ∃ saved', forTo lang n x
        ⟨tokens, i + 2 + h.first.tokens.length + 1, saved, ⟨control, user⟩⟩ =
      (0, x, scanInt limit, ⟨tokens, i + h.tokens.length, saved',
        ⟨control.setFor n (scanInt limit) (scanInt step) (i + h.tokens.length), user₂⟩⟩) := by
  obtain ⟨saved₁, he⟩ := evaluate_stands lang hh.limit hlimit saved control
  set control₁ : Control :=
    { control with forTo := Function.update control.forTo n (some (scanInt limit)) }
  have hstart : forTo lang n x ⟨tokens, i + 2 + h.first.tokens.length + 1, saved, ⟨control, user⟩⟩ =
      forStep lang n x (scanInt limit) ⟨tokens,
        i + 2 + h.first.tokens.length + 1 + h.limit.tokens.length, saved₁, ⟨control₁, user₁⟩⟩ := by
    rw [forTo, he]
    rfl
  rw [hstart, forStep]
  cases hhas : h.step with
  | none =>
      have hlen : h.tokens.length =
          2 + h.first.tokens.length + 1 + h.limit.tokens.length := by
        rw [ForHead.tokens, hhas]
        simp only [List.length_cons, List.length_append, Option.elim_none, List.length_nil]
        omega
      have hplace : i + h.tokens.length =
          i + 2 + h.first.tokens.length + 1 + h.limit.tokens.length := by omega
      obtain ⟨type, text, q, hget, htype, hput⟩ := getToken_put lang tokens
        (i + 2 + h.first.tokens.length + 1 + h.limit.tokens.length) saved₁ ⟨control₁, user₁⟩
      have hne : type ≠ .step := by
        rw [htype]
        cases hat : tokens[i + 2 + h.first.tokens.length + 1 + h.limit.tokens.length]? with
        | none => exact fun h => by cases h
        | some t => exact hh.noStep hhas t hat
      rw [hhas] at hstep
      cases hstep
      refine ⟨i + 2 + h.first.tokens.length + 1 + h.limit.tokens.length, ?_⟩
      rw [hget, hplace]
      simp only [if_neg hne, hput]
      rfl
  | some e =>
      have hlen : h.tokens.length =
          2 + h.first.tokens.length + 1 + h.limit.tokens.length + 1 + e.tokens.length := by
        rw [ForHead.tokens, hhas]
        simp only [List.length_cons, List.length_append, Option.elim_some]
        omega
      have hplace : i + h.tokens.length =
          i + 2 + h.first.tokens.length + 1 + h.limit.tokens.length + 1 + e.tokens.length := by
        omega
      rw [hhas] at hstep
      obtain ⟨text, -, hget⟩ := getToken_segment lang (ForHead.step_segment hh hhas) saved₁
        ⟨control₁, user₁⟩
      obtain ⟨saved₂, he⟩ := evaluate_stands lang (hh.step e hhas) hstep
        (i + 2 + h.first.tokens.length + 1 + h.limit.tokens.length) control₁
      refine ⟨saved₂, ?_⟩
      rw [hget, hplace]
      simp only [mark, if_true, he]
      rfl

theorem forHead_stands {h : ForHead σ} {i j : ℕ} (hh : h.Stands lang tokens i j) {user : σ}
    {entry : Entry σ} (henter : h.enter user = some entry) (n : ℤ) (control : Control)
    (saved : ℕ) :
    ∃ saved', forHead lang n .identifier h.name ⟨tokens, i + 1, saved, ⟨control, user⟩⟩ =
      (0, entry.first, entry.limit, ⟨tokens, i + h.tokens.length, saved',
        ⟨control.setFor n entry.limit entry.step (i + h.tokens.length), entry.user⟩⟩) := by
  simp only [ForHead.enter, Option.bind_eq_bind, Option.bind_eq_some_iff, Prod.exists] at henter
  obtain ⟨first, user₁, hfirst, limit, user₂, hlimit, step, user₃, hstep, hentry⟩ := henter
  cases hentry
  have hassign := segment_tail hh.present
  have hto := segment_drop (segment_tail hassign)
  obtain ⟨_, -, hget₁⟩ := getToken_segment lang hassign saved ⟨control, user⟩
  obtain ⟨saved₁, he⟩ := evaluate_stands lang hh.first hfirst (i + 1) control
  obtain ⟨_, -, hget₂⟩ := getToken_segment lang hto saved₁ ⟨control, h.put first user₁⟩
  obtain ⟨saved₂, hrest⟩ := forTo_stands hh hlimit hstep n (scanInt first)
    (i + 2 + h.first.tokens.length) control
  refine ⟨saved₂, ?_⟩
  have hput := hh.put first user₁
  rw [forHead]
  simp only [ne_eq, not_true_eq_false, if_false, hget₁, mark, he, Running.setUser, hput, hget₂,
    hrest]

/-! ## The scan of a loop that is not entered -/

theorem forEnd_of_not_next {name : Bytes} {t : Token} (ts : List Token)
    (hnull : t.type ≠ .nullToken) (hnext : t.type ≠ .next) :
    forEnd name false (t :: ts) = (forEnd name false ts).map (· + 1) := by
  rw [forEnd, if_neg hnull, decide_eq_false hnext]
  rfl

theorem forEnd_nextFree {name : Bytes} {ts : List Token} (h : nextFree name ts = true)
    {n w : Token} (hn : n.type = .next) (hw : w.type ≠ .nullToken) (htext : w.text = name)
    (rest : List Token) :
    forEnd name false (ts ++ n :: w :: rest) = some (ts.length + 1) := by
  have hend : forEnd name false (n :: w :: rest) = some 1 := by
    simp only [forEnd, hn, reduceCtorEq, if_false, Bool.false_eq_true, decide_true, hw, if_true,
      htext, Option.map_some]
  induction ts with
  | nil => exact hend
  | cons t ts ih =>
      cases ts with
      | nil =>
          obtain ⟨hnull, hnext⟩ := of_decide_eq_true h
          rw [List.cons_append, List.nil_append, forEnd_of_not_next _ hnull hnext, hend]
          rfl
      | cons u ts =>
          obtain ⟨hnull, hname, hfree⟩ := of_decide_eq_true h
          have hu := ih hfree
          by_cases hnext : t.type = .next
          · obtain ⟨hunext, huname⟩ := hname hnext
            have hunull : u.type ≠ .nullToken := by
              cases ts with
              | nil => exact (of_decide_eq_true hfree).1
              | cons v ts => exact (of_decide_eq_true hfree).1
            rw [List.cons_append, forEnd_of_not_next _ hunull hunext] at hu
            have hstep : forEnd name false (t :: u :: (ts ++ n :: w :: rest)) =
                ((forEnd name false (ts ++ n :: w :: rest)).map (· + 1)).map (· + 1) := by
              simp only [forEnd, hnext, reduceCtorEq, if_false, Bool.false_eq_true, decide_true,
                hunull, if_true, huname]
            rw [List.cons_append, List.cons_append, hstep, hu]
            rfl
          · rw [List.cons_append, forEnd_of_not_next _ hnull hnext, hu]
            rfl

theorem forEnd_stands {h : ForHead σ} {i j m : ℕ} (hhead : h.Stands lang tokens i (j + m))
    (hfree : nextFree h.name ((tokens.drop j).take m) = true) :
    forEnd h.name false (tokens.drop j) = some (m + 1) := by
  have hlen : ((tokens.drop j).take m).length = m := by
    have hlt := (List.getElem?_eq_some_iff.1 (getElem?_segment hhead.next)).1
    rw [List.length_take, List.length_drop]
    omega
  have hsplit : tokens.drop j = (tokens.drop j).take m ++
      mark .next rfl :: word h.name :: tokens.drop (j + m + 2) := by
    conv_lhs => rw [← List.take_append_drop m (tokens.drop j)]
    rw [List.drop_drop, drop_segment hhead.next]
    rfl
  have hend := forEnd_nextFree hfree (n := mark .next rfl) (w := word h.name) rfl
    (by simp [word]) rfl (tokens.drop (j + m + 2))
  rw [← hsplit, hlen] at hend
  exact hend

/-- The head of a `for`, before it is known whether its body is entered. -/
theorem cmdFor_head {h : ForHead σ} {i j : ℕ} (hhead : h.Stands lang tokens (i + 1) j)
    {user : σ} {entry : Entry σ} (henter : h.enter user = some entry) (control : Control) :
    ∃ saved', cmdFor lang ⟨tokens, i + 1, i, ⟨control, user⟩⟩ =
      forSkip h.name (0, entry.first, entry.limit, ⟨tokens, i + (h.tokens.length + 1), saved',
        ⟨control.inFor entry.limit entry.step (i + (h.tokens.length + 1)), entry.user⟩⟩) := by
  have hname : [word h.name] <+: tokens.drop (i + 1) :=
    (List.prefix_append [_] _).trans hhead.present
  obtain ⟨text, htext, hget⟩ := getToken_segment lang hname i
    ⟨{ control with forNest := control.forNest + 1 }, user⟩
  obtain rfl : text = h.name := htext (by simp [word])
  obtain ⟨saved', hfor⟩ := forHead_stands hhead henter (control.forNest + 1)
    { control with forNest := control.forNest + 1 } (i + 1)
  have hplace : i + 1 + h.tokens.length = i + (h.tokens.length + 1) := by omega
  rw [hplace] at hfor
  refine ⟨saved', ?_⟩
  have hget' : getToken lang (Running.setControl
      { control with forNest := control.forNest + 1 } ⟨tokens, i + 1, i, ⟨control, user⟩⟩) =
      (.identifier, h.name, ⟨tokens, i + 1 + 1, i + 1,
        ⟨{ control with forNest := control.forNest + 1 }, user⟩⟩) := hget
  simp only [cmdFor, hget', hfor]
  rfl

theorem cmdFor_enter {h : ForHead σ} {i j : ℕ} (hhead : h.Stands lang tokens (i + 1) j)
    {user : σ} {entry : Entry σ} (henter : h.enter user = some entry)
    (hle : ¬entry.first > entry.limit) (control : Control) :
    ∃ saved', cmdFor lang ⟨tokens, i + 1, i, ⟨control, user⟩⟩ =
      (0, ⟨tokens, i + (h.tokens.length + 1), saved',
        ⟨control.inFor entry.limit entry.step (i + (h.tokens.length + 1)), entry.user⟩⟩) := by
  obtain ⟨saved', hcmd⟩ := cmdFor_head hhead henter control
  rw [forSkip, if_neg hle] at hcmd
  exact ⟨saved', hcmd⟩

/-- A `for` that is not entered goes behind the `next` after its `m` tokens. -/
theorem cmdFor_skip {h : ForHead σ} {i m : ℕ}
    (hhead : h.Stands lang tokens (i + 1) (i + (h.tokens.length + 1) + m))
    {user : σ} {entry : Entry σ} (henter : h.enter user = some entry)
    (hskip : entry.first > entry.limit)
    (hfree : nextFree h.name ((tokens.drop (i + (h.tokens.length + 1))).take m) = true)
    (control : Control) :
    ∃ saved', cmdFor lang ⟨tokens, i + 1, i, ⟨control, user⟩⟩ =
      (0, ⟨tokens, i + (h.tokens.length + 1) + m + 2, saved',
        ⟨control.setFor (control.forNest + 1) entry.limit entry.step
          (i + (h.tokens.length + 1)), entry.user⟩⟩) := by
  obtain ⟨saved₁, hcmd⟩ := cmdFor_head hhead henter control
  have hscan := forEnd_stands hhead hfree
  have hnext := segment_tail hhead.next
  rw [Nat.add_assoc] at hnext
  have hread := readAfter_segment hnext saved₁
    ⟨control.setFor (control.forNest + 1) entry.limit entry.step (i + (h.tokens.length + 1)),
      entry.user⟩
  have hleft : (control.inFor entry.limit entry.step (i + (h.tokens.length + 1))).forNest - 1 =
      control.forNest := add_sub_cancel_right _ _
  rw [forSkip, if_pos hskip] at hcmd
  simp only [Running.ahead, Running.setControl, hscan, hleft] at hcmd
  refine ⟨i + (h.tokens.length + 1) + (m + 1), hcmd.trans ?_⟩
  exact congrArg (fun q => (0, q)) (congrArg (·.2.2) hread)

theorem turn_for_enter {h : ForHead σ} {body next : Code σ} {i : ℕ}
    (hcode : (Code.forLoop h body next).Stands lang tokens i) {user : σ} {entry : Entry σ}
    (henter : h.enter user = some entry) (hle : ¬entry.first > entry.limit) (saved : ℕ)
    (control : Control) :
    ∃ saved', turn lang ⟨tokens, i, saved, ⟨control, user⟩⟩ = ⟨some (i, .for_), .go,
      ⟨tokens, i + (h.tokens.length + 1), saved',
        ⟨control.inFor entry.limit entry.step (i + (h.tokens.length + 1)), entry.user⟩⟩⟩ := by
  obtain ⟨saved', hcmd⟩ := cmdFor_enter hcode.2.1 henter hle control
  refine ⟨saved', turn_command lang .for_ hcode.1 rfl rfl ?_⟩
  simp only [command, hcmd, noWait]

theorem turn_for_skip {h : ForHead σ} {body next : Code σ} {i : ℕ}
    (hcode : (Code.forLoop h body next).Stands lang tokens i) {user : σ} {entry : Entry σ}
    (henter : h.enter user = some entry) (hskip : entry.first > entry.limit)
    (hfree : nextFree h.name ((tokens.drop (i + (h.tokens.length + 1))).take body.size) = true)
    (saved : ℕ) (control : Control) :
    ∃ saved', turn lang ⟨tokens, i, saved, ⟨control, user⟩⟩ = ⟨some (i, .for_), .go,
      ⟨tokens, i + (h.tokens.length + 1) + body.size + 2, saved',
        ⟨control.setFor (control.forNest + 1) entry.limit entry.step
          (i + (h.tokens.length + 1)), entry.user⟩⟩⟩ := by
  obtain ⟨saved', hcmd⟩ := cmdFor_skip hcode.2.1 henter hskip hfree control
  refine ⟨saved', turn_command lang .for_ hcode.1 rfl rfl ?_⟩
  simp only [command, hcmd, noWait]

theorem cmdNext_stands {h : ForHead σ} {i j start : ℕ} (hh : h.Stands lang tokens i j)
    {control : Control} {limit step : ℤ} (hto : control.forTo control.forNest = some limit)
    (hstep : control.forStep control.forNest = some step)
    (hidx : control.forIdx control.forNest = some start) {user : σ} {value : Bytes}
    (hvalue : h.get user = some value) :
    cmdNext lang ⟨tokens, j + 1, j, ⟨control, user⟩⟩ = some (0,
      if nextValue value step ≤ limit then
        ⟨tokens, start, j + 1, ⟨control, h.put (intText (nextValue value step)) user⟩⟩
      else ⟨tokens, j + 2, j + 1, ⟨{ control with forNest := control.forNest - 1 }, user⟩⟩) := by
  obtain ⟨text, htext, hget⟩ := getToken_segment lang (segment_tail hh.next) j ⟨control, user⟩
  obtain rfl : text = h.name := htext (by simp [word])
  have hvar : lang.variableGet .user (j + 1 + 1) h.name user = some value := by
    rw [hh.get user, hvalue]
  have hput := hh.putNext (intText (nextValue value step)) user
  simp only [cmdNext, hget, hvar, hto, hstep, hidx, Option.bind_eq_bind, Option.bind_some]
  split
  · exact congrArg (fun u => some (0, (⟨tokens, start, j + 1, ⟨control, u⟩⟩ : Running σ))) hput
  · rfl

/-- `next` goes back to its loop or leaves it. -/
theorem turn_next {h : ForHead σ} {i j start : ℕ} (hh : h.Stands lang tokens i j)
    {control : Control} {limit step : ℤ} (hto : control.forTo control.forNest = some limit)
    (hstep : control.forStep control.forNest = some step)
    (hidx : control.forIdx control.forNest = some start) {user : σ} {value : Bytes}
    (hvalue : h.get user = some value) (saved : ℕ) :
    turn lang ⟨tokens, j, saved, ⟨control, user⟩⟩ = ⟨some (j, .next), .go,
      if nextValue value step ≤ limit then
        ⟨tokens, start, j + 1, ⟨control, h.put (intText (nextValue value step)) user⟩⟩
      else ⟨tokens, j + 2, j + 1, ⟨{ control with forNest := control.forNest - 1 }, user⟩⟩⟩ := by
  have hnext : [mark .next rfl] <+: tokens.drop j := (List.prefix_append [_] _).trans hh.next
  have hcmd := cmdNext_stands hh hto hstep hidx hvalue
  apply turn_command lang .next hnext rfl rfl
  simp only [command, hcmd, noWait, Option.map_some]

end

end ScOpen
