import ScOpen.TokenReferences

/-!
# The value of a variable token

The references of a token are replaced from left to right, those in a name before the one with the
name. With each replacement the text stays the one of the token with values in place of some
references.
-/

namespace ScOpen

open Halting

/-! ## The tokens of references -/

theorem isWord_zero {c : UInt8} (h : isWord c = true) : c ≠ 0 := isWord_ne h (by decide)

theorem Reference.token_cons (r : Reference) : ∃ rest, r.token = chr '$' :: rest := by
  cases r with
  | mk more first rest =>
      cases more with
      | zero => exact ⟨_, rfl⟩
      | succ more => exact ⟨_, rfl⟩

mutual

theorem Reference.zero_notMem (r : Reference) : 0 ∉ r.token := by
  cases r with
  | mk more first rest =>
      simp only [Reference.token, List.mem_append, List.mem_replicate, List.mem_cons, not_or]
      exact ⟨fun h => absurd h.2 (by decide), by decide, first.zero_notMem, rest.zero_notMem⟩
termination_by structural r

theorem NamePart.zero_notMem (p : NamePart) : 0 ∉ p.token := by
  cases p with
  | char w =>
      rw [NamePart.token, List.mem_singleton]
      exact (isWord_zero w.isWord).symm
  | bracket b inside refs =>
      simp only [NamePart.token, List.mem_append, List.mem_cons, List.not_mem_nil, or_false, not_or]
      exact ⟨b.opening_ne.2.symm, ⟨inside.zero_notMem, refs.zero_notMem⟩, b.closing_ne.2.symm⟩
termination_by structural p

theorem NameParts.zero_notMem (ps : NameParts) : 0 ∉ ps.token := by
  cases ps with
  | nil => exact List.not_mem_nil
  | cons p ps =>
      rw [NameParts.token, List.mem_append, not_or]
      exact ⟨p.zero_notMem, ps.zero_notMem⟩
termination_by structural ps

theorem References.zero_notMem (refs : References) : 0 ∉ refs.token := by
  cases refs with
  | nil => exact List.not_mem_nil
  | cons r refs =>
      rw [References.token, List.mem_append, not_or]
      exact ⟨r.zero_notMem, refs.zero_notMem⟩
termination_by structural refs

end

section

variable (variableGet : Bytes → Option Bytes)

mutual

def NamePart.filled : NamePart → Bytes
  | .char w => [w.c]
  | .bracket b inside refs =>
      b.opening :: (inside.filled ++ refs.values variableGet ++ [b.closing])

def NameParts.filled : NameParts → Bytes
  | .nil => []
  | .cons p ps => p.filled ++ ps.filled

end

variable {variableGet}

theorem References.named (refs : References) (h : refs.Kept variableGet) :
    Named (refs.values variableGet) (refs.values variableGet) := by
  cases refs with
  | nil => exact .nil
  | cons r refs => exact (Named.index h.2.1).append (refs.named h.2.2)
termination_by structural refs

mutual

theorem NamePart.named (p : NamePart) (h : p.Kept variableGet) :
    Named (p.filled variableGet) (p.name variableGet) := by
  cases p with
  | char w => exact .word w.isWord
  | bracket b inside refs => exact ((inside.named h.1).append (refs.named h.2)).bracket b
termination_by structural p

theorem NameParts.named (ps : NameParts) (h : ps.Kept variableGet) :
    Named (ps.filled variableGet) (ps.name variableGet) := by
  cases ps with
  | nil => exact .nil
  | cons p ps => exact (p.named h.1).append (ps.named h.2)
termination_by structural ps

end

theorem NamePart.filled_ne_nil (p : NamePart) : p.filled variableGet ≠ [] := by
  cases p with
  | char w => exact List.cons_ne_nil _ _
  | bracket b inside refs => exact List.cons_ne_nil _ _

end

/-! ## One reference -/

structure EndsBehind (followed : Bool) (s : LookState) (right : Bytes) : Prop where
  zero : 0 ∉ right
  first : followed = false → firstByte right ≠ chr '$'
  ends : ∀ i name n, (followed = true → s.nest = 0 → name ≠ []) →
    EndsLook right (s.behind i name n)

section

variable {vars : UserVariables} {followed : Bool} {left text name right : Bytes}
  {s : LookState}

/-- The values that are names again are replaced one after the other. -/
theorem chain_reaches (hstands : Stands true left s) (hs : s.Begins)
    (hright : EndsBehind followed s right) {k : ℕ} (htext : Named text name)
    (hne : followed = true → text ≠ []) (hname : followed = true → s.nest = 0 → name ≠ [])
    (hkept : ChainKept vars.get followed k name) :
    Reaches (evaluateStep vars.get)
      (left ++ (List.replicate k (chr '$') ++ chr '$' :: (text ++ right)))
      (left ++ (marked ((variableValue vars.get)^[k + 1] name) ++ right)) := by
  have hfirst (text : Bytes) (hdollar : chr '$' ∉ text) (hne : followed = true → text ≠ []) :
      firstByte (text ++ right) ≠ chr '$' := by
    cases text with
    | nil =>
        refine hright.first (Bool.eq_false_iff.2 fun hfollowed => ?_)
        exact hne hfollowed rfl
    | cons c text =>
        rw [firstByte_append (List.cons_ne_nil c text)]
        exact firstByte_ne hdollar
  induction k generalizing text name with
  | zero =>
      have hstep := evaluateStep_reference vars hstands hs htext 0 hright.zero
        (hfirst text htext.dollar hne) (hright.ends _ _ _ hname)
      exact .next .refl hstep
  | succ k ih =>
      have hstep := evaluateStep_reference vars hstands hs htext (k + 1) hright.zero
        (hfirst text htext.dollar hne) (hright.ends _ _ _ hname)
      obtain ⟨hindex, hvalue, hrest⟩ := hkept
      have hchain := ih (.index hindex) hvalue (fun hfollowed _ => hvalue hfollowed) hrest
      have hmore (rest : Bytes) : List.replicate (k + 1) (chr '$') ++ rest =
          List.replicate k (chr '$') ++ chr '$' :: rest := by
        rw [List.replicate_succ', List.append_assoc, List.singleton_append]
      rw [marked_index hindex, hmore (variableValue vars.get name ++ right)] at hstep
      exact .head hstep hchain

/-- In a bracket, a reference is followed by another one or by the end of the bracket. -/
theorem References.follows (refs : References) (s : LookState) (b : Bracket) (hright : 0 ∉ right) :
    EndsBehind refs.any s (refs.token ++ b.closing :: right) := by
  have hclosing : isClosing b.closing = true := by cases b <;> rfl
  refine ⟨?_, fun hany => ?_, fun i name n hname => ?_⟩
  · rw [List.mem_append, List.mem_cons, not_or, not_or]
    exact ⟨refs.zero_notMem, b.closing_ne.2.symm, hright⟩
  · cases refs with
    | nil => exact b.closing_ne.1
    | cons r refs => cases hany
  · cases refs with
    | nil => exact endsLook_closing hclosing rfl right
    | cons r refs =>
        obtain ⟨rest, hrest⟩ := r.token_cons
        rw [References.token, hrest]
        exact endsLook_dollar (s := s.behind i name n) rfl (hname rfl) _

mutual

/-- The references in a part of a name are replaced. -/
theorem NamePart.reaches (p : NamePart) (hkept : p.Kept vars.get) {free : Bool} {left : Bytes}
    {s : LookState} (hstands : Stands free left s) (hs : s.Within) {right : Bytes}
    (hright : 0 ∉ right) :
    Reaches (evaluateStep vars.get) (left ++ (p.token ++ right))
      (left ++ (p.filled vars.get ++ right)) := by
  cases p with
  | char w => exact .refl
  | bracket b inside refs =>
      have hopened : Stands true (left ++ [b.opening])
          ((s.add (b.shown b.opening) 1).deeper 1) := by
        refine hstands.append ?_ ?_ (List.cons_ne_nil _ _) ?_
        · rw [List.mem_singleton]
          exact b.opening_ne.2.symm
        · rw [List.mem_singleton]
          exact b.opening_ne.1.symm
        · rw [lookOver_cons, lookChar_opening]
          rfl
      have hnest := hs.nest
      have hwithin : ((s.add (b.shown b.opening) 1).deeper 1).Within :=
        ⟨hs.var, hs.nestVar, le_trans hnest (Int.le_add_of_nonneg_right Int.one_nonneg)⟩
      have hnamed := inside.named hkept.1
      have hfilled := hopened.append_free hnamed.zero hnamed.dollar (hnamed.passes _ hwithin)
      have hclosed : 0 ∉ b.closing :: right := by
        rw [List.mem_cons, not_or]
        exact ⟨b.closing_ne.2.symm, hright⟩
      have hinsideRight : 0 ∉ refs.token ++ b.closing :: right := by
        rw [List.mem_append, not_or]
        exact ⟨refs.zero_notMem, hclosed⟩
      have hinside := inside.reaches hkept.1 hopened hwithin hinsideRight
      have hdeeper : s.nestVar < s.nest + 1 := Int.lt_add_one_of_le hnest
      have hrefs := refs.reaches hkept.2 hfilled ⟨hwithin.var, hwithin.nestVar, hwithin.nest⟩
        hdeeper b hright
      have hrun := hinside.trans (by simpa using hrefs)
      simpa [NamePart.token, NamePart.filled] using hrun
termination_by structural p

theorem NameParts.reaches (ps : NameParts) (hkept : ps.Kept vars.get) {free : Bool} {left : Bytes}
    {s : LookState} (hstands : Stands free left s) (hs : s.Within) {right : Bytes}
    (hright : 0 ∉ right) :
    Reaches (evaluateStep vars.get) (left ++ (ps.token ++ right))
      (left ++ (ps.filled vars.get ++ right)) := by
  cases ps with
  | nil => exact .refl
  | cons p ps =>
      have hnamed := p.named hkept.1
      have hfirstRight : 0 ∉ ps.token ++ right := by
        rw [List.mem_append, not_or]
        exact ⟨ps.zero_notMem, hright⟩
      have hfirst := p.reaches hkept.1 hstands hs hfirstRight
      have hbehind := hstands.append hnamed.zero hnamed.dollar p.filled_ne_nil (hnamed.passes _ hs)
      have hrest := ps.reaches hkept.2 hbehind ⟨hs.var, hs.nestVar, hs.nest⟩ hright
      rw [List.append_assoc, List.append_assoc] at hrest
      rw [NameParts.token, NameParts.filled, List.append_assoc, List.append_assoc]
      exact hfirst.trans hrest
termination_by structural ps

/-- The references in a bracket are replaced. -/
theorem References.reaches (refs : References) (hkept : refs.Kept vars.get) {left : Bytes}
    {s : LookState} (hstands : Stands true left s) (hs : s.Within) (hnest : s.nestVar < s.nest)
    (b : Bracket) {right : Bytes} (hright : 0 ∉ right) :
    Reaches (evaluateStep vars.get) (left ++ (refs.token ++ b.closing :: right))
      (left ++ (refs.values vars.get ++ b.closing :: right)) := by
  cases refs with
  | nil => exact .refl
  | cons r refs =>
      obtain ⟨hr, hindex, hrefs⟩ := hkept
      have hdeep : 0 < s.nest := lt_of_le_of_lt hs.nestVar hnest
      have hbegins : s.Begins :=
        ⟨hdeep.le, fun _ => hnest.ne, fun hzero => absurd hzero hdeep.ne'⟩
      have hfollows := refs.follows s b hright
      have hfirst := r.reaches hr hstands hbegins hfollows fun _ hzero => absurd hzero hdeep.ne'
      have hnamed := Named.index hindex
      have hbehind := hstands.append_free hnamed.zero hnamed.dollar (hnamed.passes _ hs)
      have hrest := refs.reaches hrefs hbehind ⟨hs.var, hs.nestVar, hs.nest⟩ hnest b hright
      rw [marked_index hindex] at hfirst
      rw [List.append_assoc, List.append_assoc] at hrest
      rw [References.token, References.values, List.append_assoc, List.append_assoc]
      exact hfirst.trans hrest
termination_by structural refs

/-- A reference is replaced by its value. -/
theorem Reference.reaches (r : Reference) {followed : Bool} (hkept : r.Kept vars.get followed)
    {left : Bytes} {s : LookState} (hstands : Stands true left s) (hs : s.Begins) {right : Bytes}
    (hright : EndsBehind followed s right)
    (hname : followed = true → s.nest = 0 → r.name vars.get ≠ []) :
    Reaches (evaluateStep vars.get) (left ++ (r.token ++ right))
      (left ++ (marked (r.value vars.get) ++ right)) := by
  cases r with
  | mk more first rest =>
      obtain ⟨hfirst, hrest, hchain⟩ := hkept
      have hbegun := hstands.begin hs more
      have hwithin := hs.within (left.length + more)
      have hnamed := (first.named hfirst).append (rest.named hrest)
      have hbehind := hbegun.append (first.named hfirst).zero (first.named hfirst).dollar
        first.filled_ne_nil ((first.named hfirst).passes _ hwithin)
      have hfirstRight : 0 ∉ rest.token ++ right := by
        rw [List.mem_append, not_or]
        exact ⟨rest.zero_notMem, hright.zero⟩
      have hinside := first.reaches hfirst hbegun hwithin hfirstRight
      have hinside' := rest.reaches hrest hbehind ⟨hwithin.var, hwithin.nestVar, hwithin.nest⟩
        hright.zero
      have hvalue := chain_reaches hstands hs hright hnamed
        (fun _ hnil => first.filled_ne_nil (List.append_eq_nil_iff.1 hnil).1) hname hchain
      have hrun := (hinside.trans (by simpa using hinside')).trans (by simpa using hvalue)
      simpa [Reference.token, Reference.value] using hrun
termination_by structural r

end

/-! ## The text on the left of a reference -/

theorem marked_append (v w : Bytes) : marked (v ++ w) = marked v ++ marked w := List.map_append

theorem marked_cons (c : UInt8) (v : Bytes) :
    marked (c :: v) = (if c = chr '$' then 255 else c) :: marked v := rfl

/-- Outside of a reference, `look()` only counts brackets. -/
theorem lookOver_left {depth depth' : ℕ} {v : Bytes} {s : LookState}
    (h : openBrackets depth v = some depth') (hvar : s.var = false) (hnestVar : s.nestVar = 0)
    (hnest : s.nest = depth) :
    ∃ s', lookOver (marked v) s = some s' ∧ s'.nestVar = 0 ∧ s'.nest = depth' ∧
      (chr '[' ∉ v ∧ chr ']' ∉ v → s'.name = s.name) := by
  induction v generalizing depth s with
  | nil =>
      cases h
      exact ⟨s, rfl, hnestVar, hnest, fun _ => rfl⟩
  | cons c v ih =>
      have hno : chr '[' ∉ c :: v ∧ chr ']' ∉ c :: v →
          c ≠ chr '[' ∧ c ≠ chr ']' ∧ chr '[' ∉ v ∧ chr ']' ∉ v := by
        simp only [List.mem_cons, not_or]
        exact fun h => ⟨Ne.symm h.1.1, Ne.symm h.2.1, h.1.2, h.2.2⟩
      rw [openBrackets] at h
      rw [marked_cons, lookOver_cons]
      by_cases hopen : c = chr '[' ∨ c = chr '\x7b'
      · rw [if_pos hopen] at h
        obtain ⟨b, rfl⟩ : ∃ b : Bracket, c = b.opening := by
          rcases hopen with hc | hc
          · exact ⟨.square, hc⟩
          · exact ⟨.brace, hc⟩
        obtain ⟨s', hover, hnestVar', hnest', hname⟩ :=
          ih (s := (s.add (b.shown b.opening) 1).deeper 1) h hvar hnestVar (by
            simp only [LookState.add, LookState.deeper, hnest]
            omega)
        rw [if_neg b.opening_ne.1, lookChar_opening]
        refine ⟨s', hover, hnestVar', hnest', fun hbrackets => ?_⟩
        obtain ⟨hsquare, -, hv⟩ := hno hbrackets
        cases b with
        | square => exact absurd rfl hsquare
        | brace => exact (hname hv).trans (List.append_nil s.name)
      rw [if_neg hopen] at h
      by_cases hclose : isClosing c = true
      · rw [if_pos hclose] at h
        obtain ⟨b, rfl⟩ : ∃ b : Bracket, c = b.closing := by
          rw [isClosing, decide_eq_true_eq] at hclose
          rcases hclose with hc | hc
          · exact ⟨.square, hc⟩
          · exact ⟨.brace, hc⟩
        by_cases hdepth : 0 < depth
        · rw [if_pos hdepth] at h
          obtain ⟨s', hover, hnestVar', hnest', hname⟩ :=
            ih (s := (s.add (b.shown b.closing) 1).deeper (-1)) h hvar hnestVar (by
              simp only [LookState.add, LookState.deeper, hnest]
              omega)
          rw [if_neg b.closing_ne.1, lookChar_closing b (by omega)]
          refine ⟨s', hover, hnestVar', hnest', fun hbrackets => ?_⟩
          obtain ⟨-, hsquare, hv⟩ := hno hbrackets
          cases b with
          | square => exact absurd rfl hsquare
          | brace => exact (hname hv).trans (List.append_nil s.name)
        · rw [if_neg hdepth] at h
          cases h
      rw [if_neg hclose] at h
      obtain ⟨s', hover, hnestVar', hnest', hname⟩ := ih h hvar hnestVar hnest
      have hchar : lookChar 0 (if c = chr '$' then 255 else c) 0 s = some s := by
        by_cases hdollar : c = chr '$'
        · rw [if_pos hdollar, lookChar, if_neg (by decide), if_neg (by decide), if_neg (by decide),
            if_neg (by decide), if_neg (by decide), if_neg (by rw [hvar]; exact Bool.false_ne_true)]
        · simp only [isClosing, decide_eq_true_eq, not_or] at hclose
          rw [not_or] at hopen
          rw [if_neg hdollar, lookChar, if_neg hdollar, if_neg hopen.2, if_neg hclose.2,
            if_neg hopen.1, if_neg hclose.1, if_neg (by rw [hvar]; exact Bool.false_ne_true)]
      rw [hchar]
      exact ⟨s', hover, hnestVar', hnest', fun hbrackets => hname (hno hbrackets).2.2⟩

/-- Where the text on the left is clear, a reference starts. -/
theorem stands_of_clear {left : Bytes} (hzero : 0 ∉ left) (hclear : Clear left) :
    ∃ s, Stands true (marked left) s ∧ s.Begins ∧ (s.nest = 0 → openBrackets 0 left = some 0) := by
  obtain ⟨depth, hdepth, hflat⟩ := hclear
  obtain ⟨s, hover, hnestVar, hnest, hname⟩ :=
    lookOver_left (s := ⟨false, 0, 0, [], 0, 0⟩) hdepth rfl rfl rfl
  have hzero' : s.nest = 0 → depth = 0 := fun h => by omega
  refine ⟨s, ?_, ⟨by omega, fun h => by omega, fun h => ⟨hnestVar, ?_⟩⟩, fun h => ?_⟩
  · exact Stands.start.append_free (zero_notMem_marked hzero) (dollar_notMem_marked left) hover
  · exact hname (hflat (hzero' h))
  · rw [hdepth, hzero' h]

/-! ## The whole token -/

theorem Literal.zero_ne (l : Literal) : l.c ≠ 0 := by
  intro h
  have hname := l.isNameChar
  rw [h] at hname
  exact absurd hname (by decide)

theorem Literal.ne_255 (l : Literal) : l.c ≠ 255 := by
  intro h
  have hname := l.isNameChar
  rw [h] at hname
  exact absurd hname (by decide)

theorem Reference.zero_notMem_value (vars : UserVariables) (r : Reference) :
    0 ∉ r.value vars.get := by
  cases r with
  | mk more first rest =>
      rw [Reference.value, Function.iterate_succ_apply']
      exact vars.zero_notMem_value _

theorem VariableToken.zero_notMem_value (vars : UserVariables) (t : VariableToken) :
    0 ∉ t.value vars.get := by
  rw [VariableToken.value, List.mem_flatMap]
  rintro ⟨item, -, hmem⟩
  cases item with
  | literal l => exact l.zero_ne (List.mem_singleton.1 hmem).symm
  | reference r => exact r.zero_notMem_value vars hmem

theorem items_zero_notMem (items : List TokenItem) : 0 ∉ items.flatMap TokenItem.token := by
  rw [List.mem_flatMap]
  rintro ⟨item, -, hmem⟩
  cases item with
  | literal l => exact l.zero_ne (List.mem_singleton.1 hmem).symm
  | reference r => exact r.zero_notMem hmem

theorem items_follow {items : List TokenItem} (h : EndsName items) (s : LookState) :
    EndsBehind (startsReference items) s (items.flatMap TokenItem.token) := by
  refine ⟨items_zero_notMem items, fun hany => ?_, fun i name n hname => ?_⟩
  · cases items with
    | nil => decide
    | cons item items =>
        cases item with
        | literal l => exact l.ne_dollar
        | reference r => cases hany
  · cases items with
    | nil => exact endsLook_nil _
    | cons item items =>
        cases item with
        | literal l => exact endsLook_closing h rfl _
        | reference r =>
            obtain ⟨rest, hrest⟩ := r.token_cons
            rw [List.flatMap_cons, TokenItem.token, hrest]
            exact endsLook_dollar (s := s.behind i name n) rfl (hname rfl) _

/-- From the text with values up to an item, the loop comes to the text with all values. -/
theorem items_reach {left : Bytes} (hleft : 0 ∉ left) {items : List TokenItem}
    (hdelimited : Delimited items) (hkept : ItemsKept vars.get left items) :
    Reaches (evaluateStep vars.get) (marked left ++ items.flatMap TokenItem.token)
      (marked (left ++ items.flatMap (TokenItem.value vars.get))) := by
  induction items generalizing left with
  | nil =>
      rw [List.flatMap_nil, List.flatMap_nil, List.append_nil, List.append_nil]
      exact .refl
  | cons item items ih =>
      cases item with
      | literal l =>
          have hchar : marked [l.c] = [l.c] :=
            marked_eq fun hmem => l.ne_dollar (List.mem_singleton.1 hmem).symm
          have hleft' : 0 ∉ left ++ [l.c] := by
            rw [List.mem_append, List.mem_singleton, not_or]
            exact ⟨hleft, l.zero_ne.symm⟩
          have hrest := ih hleft' hdelimited hkept
          rw [marked_append, hchar, List.append_assoc, List.append_assoc] at hrest
          exact hrest
      | reference r =>
          obtain ⟨hclear, hr, hname, -, hitems⟩ := hkept
          obtain ⟨s, hstands, hbegins, hflat⟩ := stands_of_clear hleft hclear
          have hfirst := r.reaches hr hstands hbegins (items_follow hdelimited.1 s)
            fun hfollowed hnest => hname hfollowed (hflat hnest)
          have hleft' : 0 ∉ left ++ r.value vars.get := by
            rw [List.mem_append, not_or]
            exact ⟨hleft, r.zero_notMem_value vars⟩
          have hrest := ih hleft' hdelimited.2 hitems
          rw [marked_append, List.append_assoc, List.append_assoc] at hrest
          exact hfirst.trans hrest

theorem ItemsKept.notMem {left : Bytes} {items : List TokenItem}
    (h : ItemsKept vars.get left items) : 255 ∉ items.flatMap (TokenItem.value vars.get) := by
  induction items generalizing left with
  | nil => exact List.not_mem_nil
  | cons item items ih =>
      cases item with
      | literal l =>
          rw [List.flatMap_cons, List.mem_append, not_or]
          exact ⟨fun hmem => l.ne_255 (List.mem_singleton.1 hmem).symm, ih h⟩
      | reference r =>
          rw [List.flatMap_cons, List.mem_append, not_or]
          exact ⟨h.2.2.2.1, ih h.2.2.2.2⟩

/-- At the end the marks become `$`s again. -/
theorem evaluateStep_marked {text : Bytes} (hzero : 0 ∉ text) (hmark : 255 ∉ text) :
    evaluateStep vars.get (marked text) = .inr text := by
  have hself := cString_eq_self (zero_notMem_marked hzero)
  have hback : (marked text).map (fun c => if c = 255 then chr '$' else c) = text := by
    rw [marked, List.map_map]
    refine (List.map_congr_left fun c hc => ?_).trans (List.map_id' text)
    by_cases hdollar : c = chr '$'
    · rw [Function.comp_apply, if_pos hdollar, if_pos rfl, hdollar]
    · rw [Function.comp_apply, if_neg hdollar]
      refine if_neg ?_
      rintro rfl
      exact hmark hc
  rw [evaluateStep, hself, if_neg (dollar_notMem_marked text), replaceChar, hself,
    List.drop_length, List.append_nil, hback]

end

/-- `evaluate_token()` produces the text of the token with each reference replaced by its value. -/
def Substitutes (vars : UserVariables) (t : VariableToken) : Prop :=
  Results (evaluateStep vars.get) t.token (t.value vars.get)

/-- The values come into the text as they are, if those in names are indices, those in the text
have no byte 255, and each reference is found behind the text on its left. -/
theorem evaluate_token_substitutes {vars : UserVariables} {t : VariableToken}
    (h : t.Kept vars.get) : Substitutes vars t := by
  have hreaches := items_reach List.not_mem_nil t.delimited h
  exact ⟨_, hreaches, evaluateStep_marked (t.zero_notMem_value vars) h.notMem⟩

/-- `$c[$i]`. -/
def indexedToken : VariableToken where
  items := [.reference (.mk 0 (.char ⟨chr 'c', rfl⟩)
    (.cons (.bracket .square .nil (.cons (.mk 0 (.char ⟨chr 'i', rfl⟩) .nil) .nil)) .nil))]
  delimited := ⟨trivial, trivial⟩

def indexedVariables : UserVariables where
  get name :=
    if name = cstr "i" then some (cstr "1")
    else if name = cstr "c[1]" then some (cstr "$i]") else none
  zero_notMem name v hv := by
    split_ifs at hv
    all_goals
      cases hv
      decide

theorem evaluate_token_substitutes_indexed : Substitutes indexedVariables indexedToken := by
  refine evaluate_token_substitutes ⟨⟨0, rfl, fun _ => ⟨by decide, by decide⟩⟩, ?_, ?_, by decide,
    trivial⟩
  · exact ⟨trivial, ⟨⟨trivial, ⟨trivial, trivial, trivial⟩, by decide, trivial⟩, trivial⟩, trivial⟩
  · exact fun hfollowed => absurd hfollowed (by decide)

def plainToken : VariableToken where
  items := [.reference (.mk 0 (.char ⟨chr 'x', rfl⟩) .nil)]
  delimited := ⟨trivial, trivial⟩

def markVariables : UserVariables where
  get name := if name = cstr "x" then some [255] else none
  zero_notMem name v hv := by
    split_ifs at hv
    cases hv
    decide

/-- A byte 255 in a value comes out as a `$`. -/
theorem evaluate_token_not_always_substitutes :
    ¬∀ (vars : UserVariables) (t : VariableToken), Substitutes vars t := by
  intro h
  have hturn : evaluateStep markVariables.get plainToken.token = .inl [255] := by decide
  have hend : evaluateStep markVariables.get [255] = .inr [chr '$'] := by decide
  have hresult : Results (evaluateStep markVariables.get) plainToken.token [chr '$'] :=
    ⟨[255], .next .refl hturn, hend⟩
  have hvalue : plainToken.value markVariables.get = [chr '$'] :=
    (h markVariables plainToken).unique hresult
  exact absurd hvalue (by decide)

end ScOpen
