import ScOpen.VariableTokens

/-!
# Finding references

`look()` goes over text, over the brackets of a name and over values that are indices, and stops
behind the first reference that has no other one in it.
-/

namespace ScOpen

/-! ## Going over text -/

def lookOver (text : Bytes) (s : LookState) : Option LookState :=
  text.foldlM (fun s c => lookChar 0 c 0 s) s

theorem lookOver_append (text text' : Bytes) (s : LookState) :
    lookOver (text ++ text') s = lookOver text s >>= lookOver text' := List.foldlM_append

theorem lookOver_cons (c : UInt8) (text : Bytes) (s : LookState) :
    lookOver (c :: text) s = lookChar 0 c 0 s >>= lookOver text := List.foldlM_cons

section

variable {i : ℕ} {c next : UInt8} {text text' data left right name name' : Bytes}
  {s s' : LookState}

theorem lookChar_plain (hc : c ≠ chr '$') : lookChar i c next s = lookChar 0 c 0 s := by
  rw [lookChar, lookChar, if_neg hc, if_neg hc]

theorem lookFrom_over (hdollar : chr '$' ∉ text) (h : lookOver text s = some s') :
    lookFrom i (text ++ data) s = lookFrom (i + text.length) data s' := by
  induction text generalizing i s with
  | nil =>
      cases h
      rfl
  | cons c text ih =>
      have hc : c ≠ chr '$' := fun hc => hdollar (by rw [hc]; exact List.mem_cons_self)
      have htext : chr '$' ∉ text := fun hmem => hdollar (List.mem_cons_of_mem c hmem)
      rw [lookOver_cons] at h
      obtain ⟨s₁, hs₁, hrest⟩ := Option.bind_eq_some_iff.1 h
      rw [List.cons_append, lookFrom, lookChar_plain hc, hs₁]
      have hrun := ih (i := i + 1) htext hrest
      rw [List.length_cons, Nat.add_comm text.length 1, ← Nat.add_assoc]
      exact hrun

/-! ## Names -/

def LookState.add (s : LookState) (name : Bytes) (n : ℕ) : LookState :=
  { s with name := s.name ++ name, idx2 := s.idx2 + n }

structure LookState.Within (s : LookState) : Prop where
  var : s.var = true
  nestVar : 0 ≤ s.nestVar
  nest : s.nestVar ≤ s.nest

structure Named (text name : Bytes) : Prop where
  dollar : chr '$' ∉ text
  zero : 0 ∉ text
  passes : ∀ s : LookState, s.Within → lookOver text s = some (s.add name text.length)

theorem Named.nil : Named [] [] :=
  ⟨List.not_mem_nil, List.not_mem_nil, fun s _ => by
    rw [LookState.add, List.append_nil]
    rfl⟩

theorem Named.append (h : Named text name) (h' : Named text' name') :
    Named (text ++ text') (name ++ name') := by
  refine ⟨?_, ?_, fun s hs => ?_⟩
  · rw [List.mem_append, not_or]
    exact ⟨h.dollar, h'.dollar⟩
  · rw [List.mem_append, not_or]
    exact ⟨h.zero, h'.zero⟩
  · have hs' : (s.add name text.length).Within := ⟨hs.var, hs.nestVar, hs.nest⟩
    have hsecond := h'.passes _ hs'
    rw [lookOver_append, h.passes s hs]
    refine hsecond.trans ?_
    rw [LookState.add, LookState.add, LookState.add, List.length_append, List.append_assoc,
      Nat.add_assoc]

theorem isWord_ne (h : isWord c = true) {d : UInt8} (hd : isWord d = false) : c ≠ d := by
  rintro rfl
  rw [h] at hd
  cases hd

theorem lookChar_word (h : isWord c = true) (hvar : s.var = true) :
    lookChar 0 c 0 s = some (s.add [c] 1) := by
  have hword : isAlnum c = true ∨ c = chr '_' ∨ c = chr '.' := by
    rw [isWord, Bool.or_eq_true, decide_eq_true_eq] at h
    exact h
  rw [lookChar, if_neg (isWord_ne h (by decide)), if_neg (isWord_ne h (by decide)),
    if_neg (isWord_ne h (by decide)), if_neg (isWord_ne h (by decide)),
    if_neg (isWord_ne h (by decide)), if_pos hvar, if_pos hword]
  rfl

theorem Named.word (h : isWord c = true) : Named [c] [c] := by
  refine ⟨?_, ?_, fun s hs => ?_⟩
  · rw [List.mem_singleton]
    exact fun hc => isWord_ne h (by decide) hc.symm
  · rw [List.mem_singleton]
    exact fun hc => isWord_ne h (by decide) hc.symm
  · rw [lookOver_cons, lookChar_word h hs.var]
    rfl

def LookState.deeper (s : LookState) (n : ℤ) : LookState := { s with nest := s.nest + n }

theorem lookChar_opening (b : Bracket) (s : LookState) :
    lookChar 0 b.opening 0 s = some ((s.add (b.shown b.opening) 1).deeper 1) := by
  cases b with
  | square => rfl
  | brace =>
      rw [LookState.deeper, LookState.add, Bracket.shown, List.append_nil]
      rfl

theorem lookChar_closing (b : Bracket) (h : s.nestVar ≠ s.nest) :
    lookChar 0 b.closing 0 s = some ((s.add (b.shown b.closing) 1).deeper (-1)) := by
  cases b with
  | square =>
      have hc : Bracket.square.closing = chr ']' := rfl
      rw [hc, lookChar, if_neg (by decide), if_neg (by decide), if_neg (by decide),
        if_neg (by decide), if_pos rfl, if_neg h]
      rfl
  | brace =>
      have hc : Bracket.brace.closing = chr '\x7d' := rfl
      rw [hc, lookChar, if_neg (by decide), if_neg (by decide), if_pos rfl, if_neg h,
        LookState.deeper, LookState.add, Bracket.shown, List.append_nil]
      rfl

theorem Bracket.opening_ne (b : Bracket) : b.opening ≠ chr '$' ∧ b.opening ≠ 0 := by
  cases b <;> decide

theorem Bracket.closing_ne (b : Bracket) : b.closing ≠ chr '$' ∧ b.closing ≠ 0 := by
  cases b <;> decide

theorem Named.bracket (b : Bracket) (h : Named text name) :
    Named (b.opening :: (text ++ [b.closing]))
      (b.shown b.opening ++ (name ++ b.shown b.closing)) := by
  refine ⟨?_, ?_, fun s hs => ?_⟩
  · simp only [List.mem_cons, List.mem_append, List.not_mem_nil, or_false, not_or]
    exact ⟨b.opening_ne.1.symm, h.dollar, b.closing_ne.1.symm⟩
  · simp only [List.mem_cons, List.mem_append, List.not_mem_nil, or_false, not_or]
    exact ⟨b.opening_ne.2.symm, h.zero, b.closing_ne.2.symm⟩
  · have hnest := hs.nest
    have hs₁ : ((s.add (b.shown b.opening) 1).deeper 1).Within :=
      ⟨hs.var, hs.nestVar, le_trans hnest (Int.le_add_of_nonneg_right Int.one_nonneg)⟩
    have hinside := h.passes _ hs₁
    have hcloses : (((s.add (b.shown b.opening) 1).deeper 1).add name text.length).nestVar ≠
        (((s.add (b.shown b.opening) 1).deeper 1).add name text.length).nest := by
      simp only [LookState.add, LookState.deeper]
      omega
    have hend := lookChar_closing b hcloses
    rw [lookOver_cons, lookChar_opening]
    refine (lookOver_append text [b.closing] _).trans ?_
    rw [hinside]
    refine (lookOver_cons b.closing [] _).trans ?_
    rw [hend]
    simp only [lookOver, List.foldlM_nil, LookState.add, LookState.deeper, Option.bind_eq_bind,
      Option.bind_some, List.append_assoc, List.length_cons, List.length_append, List.length_nil]
    refine congrArg some ?_
    congr 1 <;> omega

theorem isWord_of_isIndexFrom {depth : ℕ} {v : Bytes} (h : isIndexFrom depth v = true)
    (hc : c ∈ v) : isWord c = true ∨ c = chr '[' ∨ c = chr ']' := by
  induction v generalizing depth with
  | nil => cases hc
  | cons d v ih =>
      rw [isIndexFrom] at h
      by_cases hopen : d = chr '['
      · rw [if_pos hopen] at h
        rcases List.mem_cons.1 hc with rfl | hc
        · exact .inr (.inl hopen)
        · exact ih h hc
      rw [if_neg hopen] at h
      by_cases hclose : d = chr ']'
      · rw [if_pos hclose, Bool.and_eq_true] at h
        rcases List.mem_cons.1 hc with rfl | hc
        · exact .inr (.inr hclose)
        · exact ih h.2 hc
      rw [if_neg hclose, Bool.and_eq_true] at h
      rcases List.mem_cons.1 hc with rfl | hc
      · exact .inl h.1
      · exact ih h.2 hc

theorem notMem_index {v : Bytes} (h : IsIndex v) {d : UInt8} (hd : isWord d = false)
    (hopen : d ≠ chr '[') (hclose : d ≠ chr ']') : d ∉ v := by
  intro hmem
  rcases isWord_of_isIndexFrom h hmem with hword | hbracket | hbracket
  · rw [hd] at hword
    cases hword
  · exact hopen hbracket
  · exact hclose hbracket

/-- Behind the brackets that it closes, an index is in the name with all its characters. -/
theorem lookOver_index {depth : ℕ} {v : Bytes} (h : isIndexFrom depth v = true)
    (hvar : s.var = true) (hnest : s.nestVar + depth ≤ s.nest) :
    lookOver v s = some ((s.add v v.length).deeper (-depth)) := by
  induction v generalizing depth s with
  | nil =>
      have hdepth : depth = 0 := by simpa [isIndexFrom] using h
      subst hdepth
      simp [lookOver, LookState.add, LookState.deeper]
  | cons c v ih =>
      rw [isIndexFrom] at h
      rw [lookOver_cons]
      by_cases hopen : c = chr '['
      · rw [if_pos hopen] at h
        have hchar : lookChar 0 c 0 s = some ((s.add [c] 1).deeper 1) := by
          rw [hopen]
          exact lookChar_opening .square s
        have hrest := ih (s := (s.add [c] 1).deeper 1) h hvar (by
          simp only [LookState.deeper, LookState.add]
          omega)
        rw [hchar]
        refine hrest.trans ?_
        simp only [LookState.add, LookState.deeper, List.append_assoc, List.cons_append,
          List.nil_append, List.length_cons]
        refine congrArg some ?_
        congr 1 <;> omega
      rw [if_neg hopen] at h
      by_cases hclose : c = chr ']'
      · rw [if_pos hclose, Bool.and_eq_true, decide_eq_true_eq] at h
        have hchar : lookChar 0 c 0 s = some ((s.add [c] 1).deeper (-1)) := by
          rw [hclose]
          refine lookChar_closing .square ?_
          omega
        have hrest := ih (s := (s.add [c] 1).deeper (-1)) h.2 hvar (by
          simp only [LookState.deeper, LookState.add]
          omega)
        rw [hchar]
        refine hrest.trans ?_
        simp only [LookState.add, LookState.deeper, List.append_assoc, List.cons_append,
          List.nil_append, List.length_cons]
        refine congrArg some ?_
        congr 1 <;> omega
      rw [if_neg hclose, Bool.and_eq_true] at h
      have hrest := ih (s := s.add [c] 1) h.2 hvar hnest
      rw [lookChar_word h.1 hvar]
      refine hrest.trans ?_
      simp only [LookState.add, LookState.deeper, List.append_assoc, List.cons_append,
        List.nil_append, List.length_cons]
      refine congrArg some ?_
      congr 1
      omega

/-- An index stands for itself in a name. -/
theorem Named.index {v : Bytes} (h : IsIndex v) : Named v v := by
  refine ⟨notMem_index h (by decide) (by decide) (by decide),
    notMem_index h (by decide) (by decide) (by decide), fun s hs => ?_⟩
  have hover := lookOver_index (s := s) h hs.var (by
    have hnest := hs.nest
    simpa using hnest)
  rw [hover]
  simp [LookState.add, LookState.deeper]

/-! ## Where a reference starts -/

structure Stands (free : Bool) (left : Bytes) (s : LookState) : Prop where
  zero : 0 ∉ left
  look : ∀ data, (free = false → firstByte data ≠ chr '$') →
    look (left ++ data) = lookFrom left.length data s

theorem Stands.start : Stands true [] ⟨false, 0, 0, [], 0, 0⟩ :=
  ⟨List.not_mem_nil, fun _ _ => rfl⟩

theorem firstByte_append (htext : text ≠ []) : firstByte (text ++ data) = firstByte text := by
  cases text with
  | nil => exact absurd rfl htext
  | cons c text => rfl

theorem firstByte_ne (hdollar : chr '$' ∉ text) : firstByte text ≠ chr '$' :=
  fun h => hdollar (mem_of_firstByte h (by decide))

theorem Stands.append {free : Bool} (h : Stands free left s) (hzero : 0 ∉ text)
    (hdollar : chr '$' ∉ text) (htext : text ≠ []) (hover : lookOver text s = some s') :
    Stands true (left ++ text) s' := by
  refine ⟨?_, fun data _ => ?_⟩
  · rw [List.mem_append, not_or]
    exact ⟨h.zero, hzero⟩
  · have hfirst : firstByte (text ++ data) ≠ chr '$' := by
      rw [firstByte_append htext]
      exact firstByte_ne hdollar
    rw [List.append_assoc, h.look (text ++ data) fun _ => hfirst, lookFrom_over hdollar hover,
      List.length_append]

theorem Stands.append_free (h : Stands true left s) (hzero : 0 ∉ text) (hdollar : chr '$' ∉ text)
    (hover : lookOver text s = some s') : Stands true (left ++ text) s' := by
  cases text with
  | nil =>
      cases hover
      rw [List.append_nil]
      exact h
  | cons c text => exact h.append hzero hdollar (List.cons_ne_nil c text) hover

structure LookState.Begins (s : LookState) : Prop where
  nest : 0 ≤ s.nest
  deep : s.nest ≠ 0 → s.nestVar ≠ s.nest
  flat : s.nest = 0 → s.nestVar = 0 ∧ s.name = []

def LookState.begin (s : LookState) (i : ℕ) : LookState := ⟨true, s.nest, s.nest, [], i, i + 1⟩

theorem LookState.Begins.within (h : s.Begins) (i : ℕ) : (s.begin i).Within :=
  ⟨rfl, h.nest, le_rfl⟩

theorem lookFrom_begin (h : s.Begins) (hdata : firstByte data ≠ chr '$') :
    lookFrom i (chr '$' :: data) s = lookFrom (i + 1) data (s.begin i) := by
  have hchar : lookChar i (chr '$') (firstByte data) s = some (s.begin i) := by
    rw [lookChar, if_pos rfl, if_neg hdata]
    by_cases hnest : s.nest = 0
    · obtain ⟨hnestVar, hname⟩ := h.flat hnest
      rw [if_neg (not_not.2 hnest), if_neg (not_not.2 hname), LookState.begin, hnest, hnestVar]
    · rw [if_pos hnest, if_neg (h.deep hnest)]
      rfl
  rw [lookFrom, hchar]

/-- Of several `$`s the last one starts a reference. -/
theorem lookFrom_dollars (k i : ℕ) (data : Bytes) (s : LookState) :
    lookFrom i (List.replicate k (chr '$') ++ chr '$' :: data) s =
      lookFrom (i + k) (chr '$' :: data) s := by
  induction k generalizing i with
  | zero => rfl
  | succ k ih =>
      have hnext : firstByte (List.replicate k (chr '$') ++ chr '$' :: data) = chr '$' := by
        cases k <;> rfl
      have hchar : lookChar i (chr '$')
          (firstByte (List.replicate k (chr '$') ++ chr '$' :: data)) s = some s := by
        rw [lookChar, if_pos rfl, if_pos hnext]
      rw [List.replicate_succ, List.cons_append, lookFrom, hchar]
      refine (ih (i + 1)).trans ?_
      rw [Nat.add_right_comm, Nat.add_assoc]

theorem Stands.begin (h : Stands true left s) (hs : s.Begins) (k : ℕ) :
    Stands false (left ++ (List.replicate k (chr '$') ++ [chr '$']))
      (s.begin (left.length + k)) := by
  refine ⟨?_, fun data hdata => ?_⟩
  · simp only [List.mem_append, List.mem_replicate, List.mem_singleton, not_or]
    exact ⟨h.zero, fun hzero => absurd hzero.2 (by decide), by decide⟩
  · have hlook := h.look (List.replicate k (chr '$') ++ chr '$' :: data) fun hfree => by
      cases hfree
    have hassoc : left ++ (List.replicate k (chr '$') ++ [chr '$']) ++ data =
        left ++ (List.replicate k (chr '$') ++ chr '$' :: data) := by
      rw [List.append_assoc, List.append_assoc, List.singleton_append]
    rw [hassoc, hlook, lookFrom_dollars, lookFrom_begin hs (hdata rfl)]
    simp only [List.length_append, List.length_replicate, List.length_singleton, Nat.add_assoc]

/-! ## Where a reference ends -/

def EndsLook (right : Bytes) (s : LookState) : Prop := ∀ i, lookFrom i right s = s

theorem endsLook_nil (s : LookState) : EndsLook [] s := fun _ => rfl

theorem endsLook_closing (hc : isClosing c = true) (hs : s.nestVar = s.nest) (right : Bytes) :
    EndsLook (c :: right) s := by
  intro i
  have hchar : lookChar i c (firstByte right) s = none := by
    rw [isClosing, decide_eq_true_eq] at hc
    rcases hc with rfl | rfl
    · rw [lookChar, if_neg (by decide), if_neg (by decide), if_neg (by decide),
        if_neg (by decide), if_pos rfl, if_pos hs]
    · rw [lookChar, if_neg (by decide), if_neg (by decide), if_pos rfl, if_pos hs]
  rw [lookFrom, hchar]

theorem endsLook_dollar (hs : s.nestVar = s.nest) (hname : s.nest = 0 → s.name ≠ [])
    (right : Bytes) : EndsLook (chr '$' :: right) s := by
  have hends (i : ℕ) (right : Bytes) (hnext : firstByte right ≠ chr '$') :
      lookFrom i (chr '$' :: right) s = s := by
    have hchar : lookChar i (chr '$') (firstByte right) s = none := by
      rw [lookChar, if_pos rfl, if_neg hnext]
      by_cases hnest : s.nest = 0
      · rw [if_neg (not_not.2 hnest), if_pos (hname hnest)]
      · rw [if_pos hnest, if_pos hs]
    rw [lookFrom, hchar]
  intro i
  induction right generalizing i with
  | nil => exact hends i [] (by decide)
  | cons c right ih =>
      by_cases hc : c = chr '$'
      · subst hc
        have hchar : lookChar i (chr '$') (firstByte (chr '$' :: right)) s = some s := by
          rw [lookChar, if_pos rfl]
          exact if_pos rfl
        rw [lookFrom, hchar]
        exact ih (i + 1)
      · exact hends i (c :: right) hc

end

/-! ## A turn -/

/-- How a value is put in the place of its reference. -/
def marked (v : Bytes) : Bytes := v.map fun c => if c = chr '$' then 255 else c

theorem replaceChar_marked {v : Bytes} (hzero : 0 ∉ v) :
    replaceChar (chr '$') 255 v = marked v := by
  rw [replaceChar, cString_eq_self hzero, List.drop_length, List.append_nil, marked]

theorem dollar_notMem_marked (v : Bytes) : chr '$' ∉ marked v := by
  intro hmem
  obtain ⟨c, -, hc⟩ := List.mem_map.1 hmem
  by_cases hdollar : c = chr '$'
  · rw [if_pos hdollar] at hc
    exact absurd hc (by decide)
  · rw [if_neg hdollar] at hc
    exact hdollar hc

theorem zero_notMem_marked {v : Bytes} (hzero : 0 ∉ v) : 0 ∉ marked v := by
  intro hmem
  obtain ⟨c, hmem', hc⟩ := List.mem_map.1 hmem
  by_cases hdollar : c = chr '$'
  · rw [if_pos hdollar] at hc
    exact absurd hc (by decide)
  · rw [if_neg hdollar] at hc
    rw [hc] at hmem'
    exact hzero hmem'

theorem marked_eq {v : Bytes} (hdollar : chr '$' ∉ v) : marked v = v := by
  have hsame : ∀ c ∈ v, (if c = chr '$' then 255 else c) = c := by
    intro c hc
    refine if_neg ?_
    rintro rfl
    exact hdollar hc
  exact (List.map_congr_left hsame).trans (List.map_id' v)

theorem marked_index {v : Bytes} (h : IsIndex v) : marked v = v :=
  marked_eq (notMem_index h (by decide) (by decide) (by decide))

variable {left text name right : Bytes} {s : LookState}

def LookState.behind (s : LookState) (i : ℕ) (name : Bytes) (n : ℕ) : LookState :=
  (s.begin i).add name n

/-- A turn replaces the last `$` and its name by the value of the variable. -/
theorem evaluateStep_reference (vars : UserVariables) (hstands : Stands true left s)
    (hs : s.Begins) (htext : Named text name) (k : ℕ) (hright : 0 ∉ right)
    (hfirst : firstByte (text ++ right) ≠ chr '$')
    (hends : EndsLook right (s.behind (left.length + k) name text.length)) :
    evaluateStep vars.get (left ++ (List.replicate k (chr '$') ++ chr '$' :: (text ++ right))) =
      .inl (left ++ (List.replicate k (chr '$') ++
        (marked (variableValue vars.get name) ++ right))) := by
  have hlook : look (left ++ (List.replicate k (chr '$') ++ chr '$' :: (text ++ right))) =
      s.behind (left.length + k) name text.length := by
    have hbegun := hstands.begin hs k
    have h := hbegun.look (text ++ right) fun _ => hfirst
    rw [lookFrom_over htext.dollar (htext.passes _ (hs.within _)), List.append_assoc,
      List.append_assoc] at h
    exact h.trans (hends _)
  have hzero : 0 ∉ left ++ (List.replicate k (chr '$') ++ chr '$' :: (text ++ right)) := by
    simp only [List.mem_append, List.mem_replicate, List.mem_cons, not_or]
    exact ⟨hstands.zero, fun hk => absurd hk.2 (by decide), by decide, htext.zero, hright⟩
  have hdollar : chr '$' ∈ left ++ (List.replicate k (chr '$') ++ chr '$' :: (text ++ right)) := by
    simp
  have hsplit : left ++ (List.replicate k (chr '$') ++ chr '$' :: (text ++ right)) =
      (left ++ List.replicate k (chr '$')) ++ ((chr '$' :: text) ++ right) := by
    simp
  have hidx1 : (left ++ List.replicate k (chr '$')).length = left.length + k := by simp
  have hidx2 : (left ++ List.replicate k (chr '$')).length + (chr '$' :: text).length =
      left.length + k + 1 + text.length := by
    simp only [List.length_append, List.length_replicate, List.length_cons]
    omega
  rw [evaluateStep, cString_eq_self hzero, if_pos hdollar, evaluateTurn, cString_eq_self hzero,
    hlook]
  simp only [LookState.behind, LookState.begin, LookState.add, List.nil_append]
  rw [← variableValue, replaceChar_marked (vars.zero_notMem_value name), hsplit, ← hidx1,
    List.take_left]
  rw [hidx1, ← hidx2, ← List.append_assoc, ← List.length_append, List.drop_left,
    List.append_assoc, List.append_assoc]

end ScOpen
