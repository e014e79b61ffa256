import ScOpen.IntegerArithmetic
import ScOpen.ListMarks
import Mathlib.Logic.Relation

/-!
# The rounds of a `for`

The first value is compared with the limit at the `for`, the others at its `next`, where the step
is added to the number that is read from the variable. The sum is an `int`.
-/

namespace ScOpen

open Expression (InInt int32_inInt int32_eq_iff)

/-! ## The numbers of a loop -/

def roundValues (x y z : ℤ) : List ℤ :=
  (List.range ((y - x) / z + 1).toNat).map fun k : ℕ => x + k * z

def lastValue (x y z : ℤ) : ℤ := y - (y - x) % z

section

variable {x y z : ℤ}

theorem roundValues_of_lt (hz : 1 ≤ z) (h : y < x) : roundValues x y z = [] := by
  have hneg : (y - x) / z < 0 := Int.ediv_neg_of_neg_of_pos (by omega) (by omega)
  have hzero : ((y - x) / z + 1).toNat = 0 := by omega
  rw [roundValues, hzero]
  rfl

theorem roundValues_of_le (hz : 1 ≤ z) (h : x ≤ y) :
    roundValues x y z = x :: roundValues (x + z) y z := by
  have hz' : z ≠ 0 := by omega
  have hquotient : (y - (x + z)) / z = (y - x) / z - 1 := by
    rw [show y - (x + z) = y - x + -1 * z by ring, Int.add_mul_ediv_right _ _ hz']
    rfl
  have hpos : 0 ≤ (y - x) / z := Int.ediv_nonneg (by omega) (by omega)
  have hcount : ((y - x) / z + 1).toNat = ((y - (x + z)) / z + 1).toNat + 1 := by
    rw [hquotient]
    omega
  rw [roundValues, hcount, List.range_succ_eq_map, List.map_cons, List.map_map, roundValues]
  congr 1
  · simp
  · apply List.map_congr_left
    intro k _
    simp only [Function.comp_apply, Nat.succ_eq_add_one, Nat.cast_add, Nat.cast_one]
    ring

theorem lastValue_add (x y z : ℤ) : lastValue (x + z) y z = lastValue x y z := by
  rw [lastValue, lastValue, show y - (x + z) = y - x - z by ring, Int.sub_emod_right]

theorem lastValue_eq (hle : x ≤ y) (hlt : y < x + z) : lastValue x y z = x := by
  rw [lastValue, Int.emod_eq_of_lt (by omega) (by omega)]
  omega

end

/-! ## What is read and written -/

theorem scanInt_inInt (text : Bytes) : InInt (scanInt text) := int32_inInt _

theorem scanInt_intText {v : ℤ} (h : InInt v) : scanInt (intText v) = v := by
  obtain ⟨d, htext, rfl⟩ := Expression.denotes_intText v
  rw [← htext, d.scanInt_text, Expression.asInt_of_inInt h]

theorem nextValue_eq {value : Bytes} {z : ℤ} (h : InInt (scanInt value + z)) :
    nextValue value z = scanInt value + z :=
  (int32_eq_iff _ _).2 ⟨h, rfl⟩

/-- A sum that is no `int` is below every limit. -/
theorem nextValue_le {value : Bytes} {y z : ℤ} (hle : scanInt value ≤ y) (hz : InInt z)
    (h : 2 ^ 31 ≤ scanInt value + z) : nextValue value z ≤ y := by
  have hx := scanInt_inInt value
  have hvalue : nextValue value z = scanInt value + z - 2 ^ 32 := by
    apply (int32_eq_iff _ _).2
    unfold InInt at hx hz ⊢
    omega
  unfold InInt at hx hz
  omega

/-! ## Runs of a loop -/

section

variable {σ : Type} (lang : Language σ)

def GoesOn (p q : Running σ) : Prop := ∃ d, turn lang p = ⟨d, .go, q⟩

def ForHead.Holds (h : ForHead σ) (user : σ) (x : ℤ) : Prop :=
  ∃ value, h.get user = some value ∧ scanInt value = x

/-- The turns of one round, up to the `next` at `stop`. The loop's variable is not assigned, and
what the round has entered it has left. -/
structure BodyRun (h : ForHead σ) (stop : ℕ) (p q : Running σ) : Prop where
  turns : Relation.ReflTransGen (GoesOn lang) p q
  tokens : q.tokens = p.tokens
  atNext : q.programIdx = stop
  keeps : p.env.control.Keeps q.env.control
  variable_ : h.get q.env.user = h.get p.env.user

/-- The rounds of a loop whose body is from `start` to `stop`, with the number in its variable at
the start of each, to behind its `next`. -/
inductive Rounds (h : ForHead σ) (start stop : ℕ) : Running σ → List ℤ → Running σ → Prop
  | last {p q r : Running σ} {x : ℤ} (hstart : p.programIdx = start) (hx : h.Holds p.env.user x)
      (hbody : BodyRun lang h stop p q) (hnext : GoesOn lang q r)
      (hleft : r.programIdx = stop + 2) : Rounds h start stop p [x] r
  | again {p q p' r : Running σ} {x : ℤ} {xs : List ℤ} (hstart : p.programIdx = start)
      (hx : h.Holds p.env.user x) (hbody : BodyRun lang h stop p q) (hnext : GoesOn lang q p')
      (hrest : Rounds h start stop p' xs r) : Rounds h start stop p (x :: xs) r

inductive ForRuns (h : ForHead σ) (start stop : ℕ) (p : Running σ) :
    List ℤ → Running σ → Prop
  | skipped {r : Running σ} (hfor : GoesOn lang p r) (hleft : r.programIdx = stop + 2) :
      ForRuns h start stop p [] r
  | entered {p' r : Running σ} {xs : List ℤ} (hfor : GoesOn lang p p')
      (hrounds : Rounds lang h start stop p' xs r) : ForRuns h start stop p xs r

structure LoopBody (tokens : List Token) (h : ForHead σ) (start stop : ℕ) (I : σ → Prop) :
    Prop where
  runs : ∀ saved control user, I user →
    ∃ q, BodyRun lang h stop ⟨tokens, start, saved, ⟨control, user⟩⟩ q ∧ I q.env.user
  put : ∀ x user, I user → I (h.put (intText x) user)
  get : ∀ x user, h.get (h.put (intText x) user) = some (intText x)

variable {lang} {tokens : List Token} {h : ForHead σ} {start stop : ℕ} {I : σ → Prop}

theorem GoesOn.unique {p q q' : Running σ} (h : GoesOn lang p q) (h' : GoesOn lang p q') : q' = q := by
  obtain ⟨d, hd⟩ := h
  obtain ⟨d', hd'⟩ := h'
  exact congrArg Turn.program (hd'.symm.trans hd)

theorem Rounds.start_eq {p r : Running σ} {xs : List ℤ} (h' : Rounds lang h start stop p xs r) :
    p.programIdx = start ∧ ∃ x ys, xs = x :: ys := by
  cases h' with
  | last hstart => exact ⟨hstart, _, _, rfl⟩
  | again hstart => exact ⟨hstart, _, _, rfl⟩

structure Control.InLoop (c : Control) (limit step : ℤ) (start : ℕ) : Prop where
  limit : c.forTo c.forNest = some limit
  step : c.forStep c.forNest = some step
  start : c.forIdx c.forNest = some start

theorem Control.InLoop.keeps {c c' : Control} {y z : ℤ} (hc : c.InLoop y z start)
    (h : c.Keeps c') : c'.InLoop y z start := by
  refine ⟨?_, ?_, ?_⟩
  · rw [h.forNest, h.forTo _ le_rfl, hc.limit]
  · rw [h.forNest, h.forStep _ le_rfl, hc.step]
  · rw [h.forNest, h.forIdx _ le_rfl, hc.start]

theorem Control.inLoop_inFor (c : Control) (y z : ℤ) : (c.inFor y z start).InLoop y z start :=
  ⟨Function.update_self .., Function.update_self .., Function.update_self ..⟩

/-- The `next` behind a round. -/
theorem goesOn_next {i : ℕ} (hh : h.Stands lang tokens i stop) {p q : Running σ}
    (htokens : p.tokens = tokens) (hbody : BodyRun lang h stop p q) {y z : ℤ}
    (hc : p.env.control.InLoop y z start) {value : Bytes} (hvalue : h.get p.env.user = some value) :
    ∃ r, GoesOn lang q r ∧
      if nextValue value z ≤ y then
        r = ⟨tokens, start, stop + 1, ⟨q.env.control,
          h.put (intText (nextValue value z)) q.env.user⟩⟩
      else r.programIdx = stop + 2 := by
  obtain ⟨tokens', idx, saved, ⟨control, user⟩⟩ := q
  obtain rfl : tokens' = tokens := hbody.tokens.trans htokens
  obtain rfl : idx = stop := hbody.atNext
  have hcontrol : control.InLoop y z start := hc.keeps hbody.keeps
  have hturn := turn_next hh hcontrol.limit hcontrol.step hcontrol.start
    (hbody.variable_.trans hvalue) saved
  refine ⟨_, ⟨_, hturn⟩, ?_⟩
  by_cases hle : nextValue value z ≤ y
  · rw [if_pos hle, if_pos hle]
  · rw [if_neg hle, if_neg hle]

/-- A loop with a body that comes to its end has its rounds. -/
theorem exists_rounds {i : ℕ} (hh : h.Stands lang tokens i stop)
    (hbody : LoopBody lang tokens h start stop I) {x y z : ℤ} (hz : 1 ≤ z) (hx : x ≤ y)
    (hy : InInt y) (hfit : lastValue x y z + z < 2 ^ 31) {saved : ℕ} {control : Control} {user : σ}
    (hc : control.InLoop y z start) (hvar : h.Holds user x) (hI : I user) :
    ∃ r, Rounds lang h start stop ⟨tokens, start, saved, ⟨control, user⟩⟩ (roundValues x y z) r := by
  induction hcount : (y - x).toNat using Nat.strong_induction_on generalizing x saved control user with
  | _ n ih =>
      obtain ⟨value, hvalue, rfl⟩ := hvar
      obtain ⟨q, hrun, hIq⟩ := hbody.runs saved control user hI
      obtain ⟨r, hnext, hr⟩ := goesOn_next hh rfl hrun hc hvalue
      have hInt := scanInt_inInt value
      rw [roundValues_of_le hz hx]
      by_cases hle : scanInt value + z ≤ y
      · have hsum : InInt (scanInt value + z) := by
          unfold InInt at hInt hy ⊢
          omega
        rw [nextValue_eq hsum, if_pos hle] at hr
        subst hr
        have hholds : h.Holds (h.put (intText (scanInt value + z)) q.env.user)
            (scanInt value + z) := ⟨_, hbody.get _ _, scanInt_intText hsum⟩
        obtain ⟨r, hrest⟩ := ih _ (by omega) hle (by rwa [lastValue_add])
          (hc.keeps hrun.keeps) hholds (hbody.put _ _ hIq) rfl
        exact ⟨r, .again rfl ⟨value, hvalue, rfl⟩ hrun hnext hrest⟩
      · rw [lastValue_eq hx (Int.not_le.1 hle)] at hfit
        have hsum : InInt (scanInt value + z) := by
          unfold InInt at hInt ⊢
          omega
        rw [nextValue_eq hsum, if_neg hle] at hr
        rw [roundValues_of_lt hz (Int.not_le.1 hle)]
        exact ⟨r, .last rfl ⟨value, hvalue, rfl⟩ hrun hnext hr⟩

/-- A loop that has its rounds adds the step within the range of `int`. -/
theorem Rounds.fit {i : ℕ} (hh : h.Stands lang tokens i stop)
    (hbody : LoopBody lang tokens h start stop I) (hstart : start ≤ stop) {y z : ℤ} (hz : 1 ≤ z)
    (hyInt : InInt y) (hzInt : InInt z) {p r : Running σ} {xs : List ℤ}
    (hrounds : Rounds lang h start stop p xs r) {x : ℤ} (hxs : xs = roundValues x y z)
    (htokens : p.tokens = tokens) (hc : p.env.control.InLoop y z start) (hvar : h.Holds p.env.user x) :
    lastValue x y z + z < 2 ^ 31 := by
  have hle : ∀ {x x' : ℤ} {ys}, x' :: ys = roundValues x y z → x ≤ y := by
    intro x x' ys heq
    by_contra hlt
    rw [roundValues_of_lt hz (Int.not_le.1 hlt)] at heq
    cases heq
  induction hrounds generalizing x with
  | last _ _ hrun hnext hleft =>
      obtain ⟨value, hvalue, rfl⟩ := hvar
      have hx := hle hxs
      rw [roundValues_of_le hz hx] at hxs
      have hlt : y < scanInt value + z := by
        by_contra hnot
        rw [roundValues_of_le hz (Int.not_lt.1 hnot)] at hxs
        cases hxs
      obtain ⟨r', hnext', hr⟩ := goesOn_next hh htokens hrun hc hvalue
      obtain rfl := hnext'.unique hnext
      rw [lastValue_eq hx hlt]
      by_contra hover
      rw [if_pos (nextValue_le hx hzInt (Int.not_lt.1 hover))] at hr
      rw [hr] at hleft
      have hsame : start = stop + 2 := hleft
      omega
  | again _ _ hrun hnext hrest ih =>
      obtain ⟨value, hvalue, rfl⟩ := hvar
      have hx := hle hxs
      rw [roundValues_of_le hz hx] at hxs
      obtain ⟨hstart', x', ys, rfl⟩ := hrest.start_eq
      have hxs' := (List.cons.inj hxs).2
      have hInt := scanInt_inInt value
      have hsumle : scanInt value + z ≤ y := hle hxs'
      have hsum : InInt (scanInt value + z) := by
        unfold InInt at hInt hyInt ⊢
        omega
      obtain ⟨r', hnext', hr⟩ := goesOn_next hh htokens hrun hc hvalue
      obtain rfl := hnext'.unique hnext
      rw [nextValue_eq hsum, if_pos hsumle] at hr
      subst hr
      rw [← lastValue_add]
      exact ih hxs' rfl (hc.keeps hrun.keeps) ⟨_, hbody.get _ _, scanInt_intText hsum⟩

section

variable {i m : ℕ} {user : σ} {entry : Entry σ}

theorem goesOn_for (hfor : [mark .for_ rfl] <+: tokens.drop i) {saved : ℕ} {control : Control}
    {q : Running σ} (hcmd : cmdFor lang ⟨tokens, i + 1, i, ⟨control, user⟩⟩ = (0, q)) :
    GoesOn lang ⟨tokens, i, saved, ⟨control, user⟩⟩ q := by
  refine ⟨_, turn_command lang .for_ hfor rfl rfl ?_⟩
  simp only [command, hcmd, noWait]

theorem ForHead.enter_ints (henter : h.enter user = some entry) :
    InInt entry.limit ∧ InInt entry.step := by
  simp only [ForHead.enter, Option.bind_eq_bind, Option.bind_eq_some_iff, Prod.exists] at henter
  obtain ⟨first, user₁, -, limit, user₂, -, step, user₃, -, hentry⟩ := henter
  cases hentry
  exact ⟨scanInt_inInt limit, scanInt_inInt step⟩

theorem ForRuns.fit (hfor : [mark .for_ rfl] <+: tokens.drop i)
    (hhead : h.Stands lang tokens (i + 1) (i + (h.tokens.length + 1) + m))
    (henter : h.enter user = some entry) (hfirst : h.Holds entry.user entry.first)
    (hstep : 1 ≤ entry.step)
    (hbody : LoopBody lang tokens h (i + (h.tokens.length + 1)) (i + (h.tokens.length + 1) + m) I)
    {saved : ℕ} {control : Control} {r : Running σ}
    (hruns : ForRuns lang h (i + (h.tokens.length + 1)) (i + (h.tokens.length + 1) + m)
      ⟨tokens, i, saved, ⟨control, user⟩⟩ (roundValues entry.first entry.limit entry.step) r)
    (hle : entry.first ≤ entry.limit) :
    lastValue entry.first entry.limit entry.step + entry.step < 2 ^ 31 := by
  obtain ⟨hlimitInt, hstepInt⟩ := h.enter_ints henter
  obtain ⟨saved', hcmd⟩ := cmdFor_enter hhead henter (Int.not_lt.2 hle) control
  generalize hxs : roundValues entry.first entry.limit entry.step = xs at hruns
  cases hruns with
  | skipped =>
      rw [roundValues_of_le hstep hle] at hxs
      cases hxs
  | entered henters hrounds =>
      obtain rfl := (goesOn_for hfor hcmd).unique henters
      exact hrounds.fit hhead hbody (Nat.le_add_right _ _) hstep hlimitInt hstepInt hxs.symm rfl
        (control.inLoop_inFor _ _) hfirst

/-- A loop over a body that comes to its end and does not assign the loop's variable runs the body
once for each of its numbers, and then is left, if and only if the step can be added to the last of
them, or there are none. -/
theorem for_rounds_right_iff (hfor : [mark .for_ rfl] <+: tokens.drop i)
    (hhead : h.Stands lang tokens (i + 1) (i + (h.tokens.length + 1) + m))
    (hfree : nextFree h.name ((tokens.drop (i + (h.tokens.length + 1))).take m) = true)
    (henter : h.enter user = some entry) (hfirst : h.Holds entry.user entry.first)
    (hstep : 1 ≤ entry.step)
    (hbody : LoopBody lang tokens h (i + (h.tokens.length + 1)) (i + (h.tokens.length + 1) + m) I)
    (hI : I entry.user) (saved : ℕ) (control : Control) :
    (∃ r, ForRuns lang h (i + (h.tokens.length + 1)) (i + (h.tokens.length + 1) + m)
      ⟨tokens, i, saved, ⟨control, user⟩⟩ (roundValues entry.first entry.limit entry.step) r) ↔
      (entry.first ≤ entry.limit →
        lastValue entry.first entry.limit entry.step + entry.step < 2 ^ 31) := by
  constructor
  · rintro ⟨r, hruns⟩
    exact hruns.fit hfor hhead henter hfirst hstep hbody
  intro hfit
  by_cases hle : entry.first ≤ entry.limit
  · obtain ⟨saved', hcmd⟩ := cmdFor_enter hhead henter (Int.not_lt.2 hle) control
    obtain ⟨r, hrounds⟩ := exists_rounds hhead hbody hstep hle (h.enter_ints henter).1 (hfit hle)
      (control.inLoop_inFor _ _) hfirst hI
    exact ⟨r, .entered (goesOn_for hfor hcmd) hrounds⟩
  · have hlt := Int.not_le.1 hle
    obtain ⟨saved', hcmd⟩ := cmdFor_skip hhead henter hlt hfree control
    rw [roundValues_of_lt hstep hlt]
    exact ⟨_, .skipped (goesOn_for hfor hcmd) rfl⟩

end

end

/-! ## Loops without a body -/

theorem to_hasText : TokenType.to_.hasText = false := rfl

def emptyHead (first limit : Bytes) : ForHead Bytes where
  name := cstr "i"
  first := oneToken (word first) rfl
  limit := oneToken (word limit) rfl
  step := none
  put value _ := value
  get user := some user

/-- `for i = first to limit / next i` -/
def emptyLoop (first limit : Bytes) : List Token :=
  [mark .for_ for_hasText, word (cstr "i"), mark .assign assign_hasText, word first,
    mark .to_ to_hasText, word limit, mark .next next_hasText, word (cstr "i")]

section

variable (first limit : Bytes)

theorem emptyHead_stands : (emptyHead first limit).Stands oneLanguage (emptyLoop first limit) 1 6 := by
  have hstep : ∀ t, (emptyLoop first limit)[6]? = some t → t.type ≠ .step := by
    intro t ht
    cases ht
    nofun
  exact ⟨⟨_, rfl⟩, oneToken_stands rfl ⟨_, rfl⟩, fun _ _ => rfl, oneToken_stands rfl ⟨_, rfl⟩, nofun,
    fun _ => hstep, ⟨_, rfl⟩, fun _ => rfl, fun _ _ => rfl⟩

theorem emptyHead_enter (user : Bytes) : (emptyHead first limit).enter user =
    some ⟨scanInt first, scanInt limit, 1, first⟩ := rfl

theorem emptyLoop_body : LoopBody oneLanguage (emptyLoop first limit) (emptyHead first limit) 6 6
    fun _ => True := by
  refine ⟨fun saved control user _ => ⟨_, ⟨.refl, rfl, rfl, Control.Keeps.refl _, rfl⟩, trivial⟩,
    fun _ _ _ => trivial, fun _ _ => rfl⟩

end

def largestInt : Bytes := cstr "2147483647"

theorem for_rounds_right_two :
    (∃ r, ForRuns oneLanguage (emptyHead (cstr "1") (cstr "2")) 6 6
      ⟨emptyLoop (cstr "1") (cstr "2"), 0, 0, ⟨zeroControl, []⟩⟩ (roundValues 1 2 1) r) ↔
      ((1 : ℤ) ≤ 2 → lastValue 1 2 1 + 1 < 2 ^ 31) :=
  for_rounds_right_iff (i := 0) (m := 0) (I := fun _ => True) ⟨_, rfl⟩ (emptyHead_stands _ _) rfl
    (emptyHead_enter (cstr "1") (cstr "2") []) ⟨_, rfl, rfl⟩ le_rfl (emptyLoop_body _ _) trivial 0
    zeroControl

/-- A loop up to the largest `int` is never left: `for i = 2147483647 to 2147483647`. -/
theorem for_rounds_not_always_right :
    ¬∀ (tokens : List Token) (h : ForHead Bytes) (i m : ℕ) (user : Bytes) (entry : Entry Bytes)
      (saved : ℕ) (control : Control), [mark .for_ rfl] <+: tokens.drop i →
      h.Stands oneLanguage tokens (i + 1) (i + (h.tokens.length + 1) + m) →
      nextFree h.name ((tokens.drop (i + (h.tokens.length + 1))).take m) = true →
      h.enter user = some entry → h.Holds entry.user entry.first → 1 ≤ entry.step →
      LoopBody oneLanguage tokens h (i + (h.tokens.length + 1)) (i + (h.tokens.length + 1) + m)
        (fun _ => True) →
      ∃ r, ForRuns oneLanguage h (i + (h.tokens.length + 1)) (i + (h.tokens.length + 1) + m)
        ⟨tokens, i, saved, ⟨control, user⟩⟩
        (roundValues entry.first entry.limit entry.step) r := by
  intro h
  have hmax : scanInt largestInt = 2 ^ 31 - 1 := by decide
  have henter := emptyHead_enter largestInt largestInt []
  have hfirst : (emptyHead largestInt largestInt).Holds largestInt (scanInt largestInt) :=
    ⟨_, rfl, rfl⟩
  obtain ⟨r, hruns⟩ := h (emptyLoop largestInt largestInt) (emptyHead largestInt largestInt) 0 0 []
    _ 0 zeroControl ⟨_, rfl⟩ (emptyHead_stands _ _) rfl henter hfirst le_rfl (emptyLoop_body _ _)
  have hfit := ForRuns.fit ⟨_, rfl⟩ (emptyHead_stands _ _) henter hfirst le_rfl (emptyLoop_body _ _)
    hruns le_rfl
  dsimp only at hfit
  rw [hmax, lastValue] at hfit
  omega

end ScOpen
