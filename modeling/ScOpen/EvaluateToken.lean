import ScOpen.ReadMachine
import ScOpen.MemoryBytes

/-!
# The variables of a token

`evaluate_token()` replaces one reference after the other by the value of its variable, until there
is no `$` in the token. `look()` finds the next reference by the brackets around it. It may end at a
bracket in front of the first `$`; then what is replaced is not a reference.
-/

namespace ScOpen

structure LookState where
  var : Bool
  nest : ℤ
  nestVar : ℤ
  name : Bytes
  idx1 : ℕ
  idx2 : ℕ

def lookChar (i : ℕ) (c next : UInt8) (s : LookState) : Option LookState :=
  if c = chr '$' then
    if next = chr '$' then some s
    else if s.nest ≠ 0 then
      if s.nestVar = s.nest then none
      else some { s with var := true, nestVar := s.nest, name := [], idx1 := i, idx2 := i + 1 }
    else if s.name ≠ [] then none
    else some { s with var := true, name := [], idx1 := i, idx2 := i + 1 }
  else if c = chr '\x7b' then some { s with idx2 := s.idx2 + 1, nest := s.nest + 1 }
  else if c = chr '\x7d' then
    if s.nestVar = s.nest then none
    else some { s with idx2 := s.idx2 + 1, nest := s.nest - 1 }
  else if c = chr '[' then
    some { s with name := s.name ++ [c], idx2 := s.idx2 + 1, nest := s.nest + 1 }
  else if c = chr ']' then
    if s.nestVar = s.nest then none
    else some { s with name := s.name ++ [c], idx2 := s.idx2 + 1, nest := s.nest - 1 }
  else if s.var then
    if isAlnum c ∨ c = chr '_' ∨ c = chr '.' then
      some { s with name := s.name ++ [c], idx2 := s.idx2 + 1 }
    else none
  else some s

def lookFrom : ℕ → Bytes → LookState → LookState
  | _, [], s => s
  | i, c :: data, s =>
      match lookChar i c (firstByte data) s with
      | some s => lookFrom (i + 1) data s
      | none => s

def look (token : Bytes) : LookState := lookFrom 0 token ⟨false, 0, 0, [], 0, 0⟩

/-- Up to its terminator, with one character in place of another. -/
def replaceChar (old new : UInt8) (text : Bytes) : Bytes :=
  (cString text).map (fun c => if c = old then new else c) ++ text.drop (cString text).length

def evaluateTurn (variableGet : Bytes → Option Bytes) (token : Bytes) : Bytes :=
  let s := look token
  let valu := replaceChar (chr '$') 255 ((variableGet s.name).getD [])
  (cString token).take s.idx1 ++ valu ++ (cString token).drop s.idx2

def evaluateStep (variableGet : Bytes → Option Bytes) (token : Bytes) : Bytes ⊕ Bytes :=
  if chr '$' ∈ cString token then .inl (evaluateTurn variableGet token)
  else .inr (replaceChar 255 (chr '$') token)

/-! ## What `look()` finds -/

def ClosesFirst : Bytes → Prop
  | [] => False
  | c :: data =>
      if c = chr '$' then firstByte data = chr '$' ∧ ClosesFirst data
      else if c = chr '\x7b' then False
      else if c = chr '\x7d' then True
      else if c = chr '[' then False
      else if c = chr ']' then True
      else ClosesFirst data

structure LookState.Blank (s : LookState) : Prop where
  var : s.var = false
  nestVar : s.nestVar = 0
  idx1 : s.idx1 = 0
  name : ∀ c ∈ s.name, c = chr '[' ∨ c = chr ']'

def LookState.Found (data : Bytes) (s : LookState) : Prop :=
  s.idx1 < s.idx2 ∧ data[s.idx1]? = some (chr '$')

/-- What a character does that does not end the name. -/
inductive LookCase (i : ℕ) (c next : UInt8) (s : LookState) : LookState → Prop
  | stays (h : c = chr '$' ∧ next = chr '$' ∨ c ≠ chr '$' ∧ s.var = false) :
      LookCase i c next s s
  | begins {s' : LookState} (hc : c = chr '$') (hvar : s'.var = true) (hidx1 : s'.idx1 = i)
      (hidx2 : s'.idx2 = i + 1) : LookCase i c next s s'
  | goes {s' : LookState} (hc : c ≠ chr '$') (hvar : s'.var = s.var)
      (hnestVar : s'.nestVar = s.nestVar) (hidx1 : s'.idx1 = s.idx1)
      (hidx2 : s'.idx2 = s.idx2 + 1)
      (hname : ∀ d ∈ s'.name, d ∈ s.name ∨ s.var = true ∨ d = chr '[' ∨ d = chr ']') :
      LookCase i c next s s'

section

variable {i : ℕ} {c next : UInt8} {data : Bytes} {s s' : LookState}

theorem lookChar_cases (h : lookChar i c next s = some s') : LookCase i c next s s' := by
  have hsame : ∀ d ∈ s.name, d ∈ s.name ∨ s.var = true ∨ d = chr '[' ∨ d = chr ']' :=
    fun _ hd => .inl hd
  have happend : s.var = true ∨ c = chr '[' ∨ c = chr ']' →
      ∀ d ∈ s.name ++ [c], d ∈ s.name ∨ s.var = true ∨ d = chr '[' ∨ d = chr ']' := by
    intro hc d hd
    rcases List.mem_append.1 hd with hd | hd
    · exact .inl hd
    · rw [List.mem_singleton.1 hd]
      exact .inr hc
  rw [lookChar] at h
  by_cases hdollar : c = chr '$'
  · rw [if_pos hdollar] at h
    by_cases hnext : next = chr '$'
    · rw [if_pos hnext] at h
      cases h
      exact .stays (.inl ⟨hdollar, hnext⟩)
    rw [if_neg hnext] at h
    by_cases hnest : s.nest ≠ 0
    · rw [if_pos hnest] at h
      by_cases hsame : s.nestVar = s.nest
      · rw [if_pos hsame] at h
        cases h
      · rw [if_neg hsame] at h
        cases h
        exact .begins hdollar rfl rfl rfl
    rw [if_neg hnest] at h
    by_cases hname : s.name ≠ []
    · rw [if_pos hname] at h
      cases h
    · rw [if_neg hname] at h
      cases h
      exact .begins hdollar rfl rfl rfl
  rw [if_neg hdollar] at h
  by_cases hopen : c = chr '\x7b'
  · rw [if_pos hopen] at h
    cases h
    exact .goes hdollar rfl rfl rfl rfl hsame
  rw [if_neg hopen] at h
  by_cases hclose : c = chr '\x7d'
  · rw [if_pos hclose] at h
    by_cases hends : s.nestVar = s.nest
    · rw [if_pos hends] at h
      cases h
    · rw [if_neg hends] at h
      cases h
      exact .goes hdollar rfl rfl rfl rfl hsame
  rw [if_neg hclose] at h
  by_cases hbegin : c = chr '['
  · rw [if_pos hbegin] at h
    cases h
    exact .goes hdollar rfl rfl rfl rfl (happend (.inr (.inl hbegin)))
  rw [if_neg hbegin] at h
  by_cases hend : c = chr ']'
  · rw [if_pos hend] at h
    by_cases hends : s.nestVar = s.nest
    · rw [if_pos hends] at h
      cases h
    · rw [if_neg hends] at h
      cases h
      exact .goes hdollar rfl rfl rfl rfl (happend (.inr (.inr hend)))
  rw [if_neg hend] at h
  by_cases hvar : s.var = true
  · rw [if_pos hvar] at h
    by_cases hword : isAlnum c = true ∨ c = chr '_' ∨ c = chr '.'
    · rw [if_pos hword] at h
      cases h
      exact .goes hdollar rfl rfl rfl rfl (happend (.inl hvar))
    · rw [if_neg hword] at h
      cases h
  · rw [if_neg hvar] at h
    cases h
    exact .stays (.inr ⟨hdollar, Bool.not_eq_true _ ▸ hvar⟩)

theorem lookFrom_found {full : Bytes} (hfull : full.drop i = data)
    (hs : s.Blank ∨ s.var = true ∧ s.Found full) :
    (lookFrom i data s).Blank ∨ (lookFrom i data s).var = true ∧ (lookFrom i data s).Found full := by
  induction data generalizing i s with
  | nil => exact hs
  | cons c data ih =>
      rw [lookFrom]
      have hc : full[i]? = some c := by
        rw [← List.head?_drop, hfull]
        rfl
      have hrest : full.drop (i + 1) = data := by
        rw [← List.drop_drop, hfull]
        rfl
      cases hlook : lookChar i c (firstByte data) s with
      | none => exact hs
      | some s' =>
          refine ih hrest ?_
          cases lookChar_cases hlook with
          | stays _ => exact hs
          | begins hdollar hvar hidx1 hidx2 =>
              refine .inr ⟨hvar, ?_, ?_⟩
              · rw [hidx1, hidx2]
                exact Nat.lt_succ_self i
              · rw [hidx1, hc, hdollar]
          | goes _ hvar hnestVar hidx1 hidx2 hname =>
              rcases hs with hblank | ⟨hset, hlt, hdollar⟩
              · refine .inl ⟨hvar.trans hblank.var, hnestVar.trans hblank.nestVar,
                  hidx1.trans hblank.idx1, fun d hd => ?_⟩
                rcases hname d hd with hd | hset | hd
                · exact hblank.name d hd
                · rw [hblank.var] at hset
                  cases hset
                · exact hd
              · refine .inr ⟨hvar.trans hset, ?_, ?_⟩
                · rw [hidx1, hidx2]
                  exact Nat.lt_succ_of_lt hlt
                · rw [hidx1]
                  exact hdollar

theorem look_found (token : Bytes) :
    (look token).Blank ∨ (look token).var = true ∧ (look token).Found token :=
  lookFrom_found rfl (.inl ⟨rfl, rfl, rfl, fun _ hd => absurd hd List.not_mem_nil⟩)

/-- Once a reference or a bracket has been found, it stays. -/
theorem lookFrom_past (h : s.var = true ∨ s.idx2 ≠ 0) :
    (lookFrom i data s).var = true ∨ (lookFrom i data s).idx2 ≠ 0 := by
  induction data generalizing i s with
  | nil => exact h
  | cons c data ih =>
      rw [lookFrom]
      cases hlook : lookChar i c (firstByte data) s with
      | none => exact h
      | some s' =>
          refine ih ?_
          cases lookChar_cases hlook with
          | stays _ => exact h
          | begins _ hvar _ _ => exact .inl hvar
          | goes _ hvar _ _ hidx2 _ =>
              right
              rw [hidx2]
              exact Nat.succ_ne_zero _

theorem mem_of_firstByte (h : firstByte data = c) (hc : c ≠ 0) : c ∈ data := by
  cases data with
  | nil => exact absurd h.symm hc
  | cons d data => exact List.mem_cons.2 (.inl h.symm)

/-- Nothing at all is found, when a closing bracket comes first. -/
theorem lookFrom_closesFirst (h : chr '$' ∈ data) :
    ((lookFrom i data ⟨false, 0, 0, [], 0, 0⟩).var = false ∧
      (lookFrom i data ⟨false, 0, 0, [], 0, 0⟩).idx2 = 0) ↔ ClosesFirst data := by
  have hpast : ∀ {i : ℕ} {data : Bytes} {s : LookState}, s.var = true ∨ s.idx2 ≠ 0 →
      ¬ ((lookFrom i data s).var = false ∧ (lookFrom i data s).idx2 = 0) := by
    rintro i data s hs ⟨hvar, hidx2⟩
    rcases lookFrom_past hs with hset | hne
    · rw [hvar] at hset
      cases hset
    · exact hne hidx2
  induction data generalizing i with
  | nil => exact absurd h List.not_mem_nil
  | cons c data ih =>
      rw [lookFrom, lookChar, ClosesFirst]
      by_cases hdollar : c = chr '$'
      · rw [if_pos hdollar, if_pos hdollar]
        by_cases hnext : firstByte data = chr '$'
        · rw [if_pos hnext, and_iff_right hnext]
          exact ih (mem_of_firstByte hnext (by decide))
        · rw [if_neg hnext]
          exact iff_of_false (hpast (.inl rfl)) fun hand => hnext hand.1
      rw [if_neg hdollar, if_neg hdollar]
      by_cases hopen : c = chr '\x7b'
      · rw [if_pos hopen, if_pos hopen]
        exact iff_of_false (hpast (.inr (Nat.succ_ne_zero 0))) id
      rw [if_neg hopen, if_neg hopen]
      by_cases hclose : c = chr '\x7d'
      · rw [if_pos hclose, if_pos hclose]
        exact iff_of_true ⟨rfl, rfl⟩ trivial
      rw [if_neg hclose, if_neg hclose]
      by_cases hbegin : c = chr '['
      · rw [if_pos hbegin, if_pos hbegin]
        exact iff_of_false (hpast (.inr (Nat.succ_ne_zero 0))) id
      rw [if_neg hbegin, if_neg hbegin]
      by_cases hend : c = chr ']'
      · rw [if_pos hend, if_pos hend]
        exact iff_of_true ⟨rfl, rfl⟩ trivial
      rw [if_neg hend, if_neg hend]
      exact ih ((List.mem_cons.1 h).resolve_left fun heq => hdollar heq.symm)

theorem firstByte_append_zero (data rest : Bytes) :
    firstByte (data ++ 0 :: rest) = firstByte data := by
  cases data with
  | nil => rfl
  | cons c data => rfl

/-- The terminator ends the name, when there is a `$` in front of it. -/
theorem lookFrom_zero (rest : Bytes) (h : s.var = true ∨ chr '$' ∈ data) :
    lookFrom i (data ++ 0 :: rest) s = lookFrom i data s := by
  induction data generalizing i s with
  | nil =>
      have hvar : s.var = true := h.resolve_right List.not_mem_nil
      have hends : lookChar i 0 (firstByte rest) s = none := by
        rw [lookChar, if_neg (by decide), if_neg (by decide), if_neg (by decide),
          if_neg (by decide), if_neg (by decide), if_pos hvar, if_neg (by decide)]
      have hcons : lookFrom i (0 :: rest) s = s := by
        rw [lookFrom, hends]
      exact hcons
  | cons c data ih =>
      rw [List.cons_append, lookFrom, lookFrom, firstByte_append_zero]
      cases hlook : lookChar i c (firstByte data) s with
      | none => rfl
      | some s' =>
          refine ih ?_
          have hmem : c ≠ chr '$' → s.var = true ∨ chr '$' ∈ data := by
            intro hc
            exact h.imp_right fun hmem =>
              (List.mem_cons.1 hmem).resolve_left fun heq => hc heq.symm
          cases lookChar_cases hlook with
          | stays hstays =>
              rcases hstays with ⟨-, hnext⟩ | ⟨hc, -⟩
              · exact .inr (mem_of_firstByte hnext (by decide))
              · exact hmem hc
          | begins _ hvar _ _ => exact .inl hvar
          | goes hc hvar _ _ _ _ =>
              rw [hvar]
              exact hmem hc

theorem look_cString {token : Bytes} (h : chr '$' ∈ cString token) :
    look (cString token) = look token := by
  by_cases hzero : 0 ∈ token
  · obtain ⟨rest, hrest⟩ := cString_append_zero hzero
    have hlook := @lookFrom_zero 0 (cString token) ⟨false, 0, 0, [], 0, 0⟩ rest (.inr h)
    rw [← hrest] at hlook
    exact hlook.symm
  · rw [cString_eq_self hzero]

theorem look_closesFirst {token : Bytes} (h : chr '$' ∈ cString token) :
    ((look token).var = false ∧ (look token).idx2 = 0) ↔ ClosesFirst (cString token) := by
  rw [← look_cString h]
  exact lookFrom_closesFirst h

end

/-! ## What a turn leaves -/

section

variable {old new : UInt8} {text token rest : Bytes} {variableGet : Bytes → Option Bytes}

theorem cString_append (h : 0 ∉ text) : cString (text ++ rest) = text ++ cString rest := by
  have hne : ∀ b ∈ text, decide (b ≠ 0) = true := by
    intro b hb
    rw [decide_eq_true_eq]
    rintro rfl
    exact h hb
  exact List.takeWhile_append_of_pos hne

theorem cString_behind (text : Bytes) : cString (text.drop (cString text).length) = [] := by
  by_cases hzero : 0 ∈ text
  · obtain ⟨rest, hrest⟩ := cString_append_zero hzero
    have hdrop : text.drop (cString text).length = 0 :: rest := by
      have hcongr := congrArg (List.drop (cString text).length) hrest
      rw [List.drop_left] at hcongr
      exact hcongr
    rw [hdrop]
    rfl
  · rw [cString_eq_self hzero, List.drop_length]
    rfl

theorem cString_replaceChar (hnew : new ≠ 0) :
    cString (replaceChar old new text) =
      (cString text).map fun c => if c = old then new else c := by
  rw [replaceChar, cString_append, cString_behind, List.append_nil]
  intro hmem
  obtain ⟨c, hc, hzero⟩ := List.mem_map.1 hmem
  by_cases hold : c = old
  · rw [if_pos hold] at hzero
    exact hnew hzero
  · rw [if_neg hold] at hzero
    rw [hzero] at hc
    exact zero_notMem_cString _ hc

theorem count_replaceChar (hnew : new ≠ 0) (hne : new ≠ old) :
    (cString (replaceChar old new text)).count old = 0 := by
  rw [cString_replaceChar hnew, List.count_eq_zero]
  intro hmem
  obtain ⟨c, hc, heq⟩ := List.mem_map.1 hmem
  by_cases hold : c = old
  · rw [if_pos hold] at heq
    exact hne heq
  · rw [if_neg hold] at heq
    exact hold heq

theorem count_cString_le (c : UInt8) (text : Bytes) : (cString text).count c ≤ text.count c :=
  (List.takeWhile_sublist _).count_le c

/-- What has none of a character adds none, whether or not it hides what is behind it. -/
theorem count_append_le {c : UInt8} (h : (cString text).count c = 0) :
    (cString (text ++ rest)).count c ≤ rest.count c := by
  by_cases hzero : 0 ∈ text
  · obtain ⟨hidden, hhidden⟩ := cString_append_zero hzero
    have hends : cString (text ++ rest) = cString text := by
      have hbehind : text ++ rest = cString text ++ 0 :: (hidden ++ rest) := by
        nth_rewrite 1 [hhidden]
        rw [List.append_assoc, List.cons_append]
      rw [hbehind]
      exact cString_zero (zero_notMem_cString text) _
    rw [hends, h]
    exact Nat.zero_le _
  · have hself := cString_eq_self hzero
    rw [hself] at h
    rw [cString_append hzero, List.count_append, h, Nat.zero_add]
    exact count_cString_le c rest

theorem zero_notMem_take (text : Bytes) (n : ℕ) : 0 ∉ (cString text).take n :=
  fun hmem => zero_notMem_cString text (List.mem_of_mem_take hmem)

/-- The `$`s that are left are those around what has been replaced. -/
theorem count_evaluateTurn (variableGet : Bytes → Option Bytes) (token : Bytes) :
    (cString (evaluateTurn variableGet token)).count (chr '$') ≤
      ((cString token).take (look token).idx1).count (chr '$') +
        ((cString token).drop (look token).idx2).count (chr '$') := by
  have hvalue : ∀ value : Bytes,
      (cString (replaceChar (chr '$') 255 value)).count (chr '$') = 0 :=
    fun value => count_replaceChar (by decide) (by decide)
  rw [evaluateTurn, List.append_assoc, cString_append (zero_notMem_take token _),
    List.count_append]
  exact Nat.add_le_add_left (count_append_le (hvalue _)) _

theorem count_found {s : LookState} (h : s.Found text) :
    (text.take s.idx1).count (chr '$') + (text.drop s.idx2).count (chr '$') <
      text.count (chr '$') := by
  obtain ⟨hlt, hdollar⟩ := h
  have hdrop : text.drop s.idx1 = chr '$' :: text.drop (s.idx1 + 1) := by
    obtain ⟨hlength, hget⟩ := List.getElem?_eq_some_iff.1 hdollar
    rw [List.drop_eq_getElem_cons hlength, hget]
  have hrest : (text.drop s.idx2).count (chr '$') ≤ (text.drop (s.idx1 + 1)).count (chr '$') := by
    have hsub : text.drop s.idx2 = (text.drop (s.idx1 + 1)).drop (s.idx2 - (s.idx1 + 1)) := by
      rw [List.drop_drop]
      congr 1
      omega
    rw [hsub]
    exact (List.drop_sublist _ _).count_le _
  calc (text.take s.idx1).count (chr '$') + (text.drop s.idx2).count (chr '$')
      < (text.take s.idx1).count (chr '$') + (text.drop s.idx1).count (chr '$') := by
        rw [hdrop, List.count_cons_self]
        omega
    _ = text.count (chr '$') := by
        rw [← List.count_append, List.take_append_drop]

end

/-! ## The loop -/

def TokenPasses (variableGet : Bytes → Option Bytes) (token : Bytes) : Prop :=
  (look token).var = true ∨
    variableGet (look token).name = none ∧ ¬ ClosesFirst (cString token)

def TokenLower (token' token : Bytes) : Prop :=
  Prod.Lex (· < ·) (· < ·)
    ((cString token').count (chr '$'), (cString token').length)
    ((cString token).count (chr '$'), (cString token).length)

def EvaluateEnds (variableGet : Bytes → Option Bytes) (token : Bytes) : Prop :=
  ∃ r, Halting.Results (evaluateStep variableGet) token r

section

variable {variableGet : Bytes → Option Bytes} {token token' : Bytes}

theorem evaluateTurn_none (hblank : (look token).Blank)
    (hname : variableGet (look token).name = none) :
    evaluateTurn variableGet token = (cString token).drop (look token).idx2 := by
  rw [evaluateTurn, hname, hblank.idx1]
  rfl

theorem evaluateTurn_lower (hdollar : chr '$' ∈ cString token)
    (hpasses : TokenPasses variableGet token) : TokenLower (evaluateTurn variableGet token) token := by
  have hcount := count_evaluateTurn variableGet token
  have hfound := look_found (cString token)
  rw [look_cString hdollar] at hfound
  rcases hfound with hblank | ⟨-, hfound⟩
  · obtain ⟨hname, hcloses⟩ : variableGet (look token).name = none ∧
        ¬ ClosesFirst (cString token) := by
      refine hpasses.resolve_left ?_
      rw [hblank.var]
      exact Bool.false_ne_true
    have hidx2 : (look token).idx2 ≠ 0 :=
      fun hzero => hcloses ((look_closesFirst hdollar).1 ⟨hblank.var, hzero⟩)
    rw [TokenLower, evaluateTurn_none hblank hname]
    have hself : cString ((cString token).drop (look token).idx2) =
        (cString token).drop (look token).idx2 :=
      cString_eq_self fun hmem => zero_notMem_cString token (List.mem_of_mem_drop hmem)
    have hpos := List.length_pos_of_mem hdollar
    have hlength : ((cString token).drop (look token).idx2).length < (cString token).length := by
      rw [List.length_drop]
      omega
    have hle : ((cString token).drop (look token).idx2).count (chr '$') ≤
        (cString token).count (chr '$') := (List.drop_sublist _ _).count_le _
    rw [hself]
    rcases hle.lt_or_eq with hlt | heq
    · exact .left _ _ hlt
    · rw [heq]
      exact .right _ hlength
  · exact .left _ _ (hcount.trans_lt (count_found hfound))

theorem evaluateStep_inl (h : evaluateStep variableGet token = .inl token') :
    chr '$' ∈ cString token ∧ token' = evaluateTurn variableGet token := by
  rw [evaluateStep] at h
  by_cases hdollar : chr '$' ∈ cString token
  · rw [if_pos hdollar] at h
    exact ⟨hdollar, (Sum.inl.inj h).symm⟩
  · rw [if_neg hdollar] at h
    cases h

theorem ends_of_passes
    (h : ∀ t, Halting.Reaches (evaluateStep variableGet) token t → chr '$' ∈ cString t →
      TokenPasses variableGet t) : EvaluateEnds variableGet token := by
  refine Halting.results_of_measure (WellFounded.prod_lex Nat.lt_wfRel.wf Nat.lt_wfRel.wf)
    (fun t => ((cString t).count (chr '$'), (cString t).length)) token ?_
  intro t₁ t₂ hreached hstep
  obtain ⟨hdollar, rfl⟩ := evaluateStep_inl hstep
  exact evaluateTurn_lower hdollar (h t₁ hreached hdollar)

def BracketName (name : Bytes) : Prop := ∀ c ∈ name, c = chr '[' ∨ c = chr ']'

theorem look_blank (hvar : (look token).var = false) : (look token).Blank := by
  rcases look_found token with hblank | ⟨hset, -⟩
  · exact hblank
  · rw [hvar] at hset
    cases hset

/-- Where a closing bracket comes first, the token stays as it is. -/
theorem closesFirst_stays (hnames : ∀ name, BracketName name → variableGet name = none)
    (t : Bytes) (h : chr '$' ∈ cString t ∧ ClosesFirst (cString t)) :
    ∃ t', evaluateStep variableGet t = .inl t' ∧
      chr '$' ∈ cString t' ∧ ClosesFirst (cString t') := by
  obtain ⟨hdollar, hcloses⟩ := h
  obtain ⟨hvar, hidx2⟩ := (look_closesFirst hdollar).2 hcloses
  have hblank := look_blank hvar
  have hturn := evaluateTurn_none hblank (hnames _ hblank.name)
  rw [hidx2, List.drop_zero] at hturn
  refine ⟨cString t, ?_, ?_⟩
  · rw [evaluateStep, if_pos hdollar, hturn]
  · rw [cString_eq_self (zero_notMem_cString t)]
    exact ⟨hdollar, hcloses⟩

/-- The evaluation of a token ends, if in each token that it comes to a reference is found or what
is replaced is not empty and no variable. Without variables whose names are brackets only, it ends
exactly when no token that it comes to has a closing bracket in front of all others and of the first
reference. -/
theorem evaluate_token_ends (variableGet : Bytes → Option Bytes) (token : Bytes) :
    ((∀ t, Halting.Reaches (evaluateStep variableGet) token t → chr '$' ∈ cString t →
        TokenPasses variableGet t) → EvaluateEnds variableGet token) ∧
      ((∀ name, BracketName name → variableGet name = none) →
        (EvaluateEnds variableGet token ↔
          ∀ t, Halting.Reaches (evaluateStep variableGet) token t → chr '$' ∈ cString t →
            ¬ ClosesFirst (cString t))) := by
  refine ⟨ends_of_passes, fun hnames => ⟨?_, fun h => ends_of_passes fun t hreached hdollar => ?_⟩⟩
  · rintro ⟨r, hr⟩ t hreached hdollar hcloses
    exact Halting.not_results_of_closed (closesFirst_stays hnames) ⟨hdollar, hcloses⟩ r
      (hr.later hreached)
  · cases hvar : (look t).var with
    | true => exact .inl hvar
    | false => exact .inr ⟨hnames _ (look_blank hvar).name, h t hreached hdollar⟩

/-- A bracket in front of the reference is enough. -/
theorem evaluate_token_not_always_ends :
    (∀ lib, getTokenText lib false (cstr "\x7d$x") = .token TT_VARIABLE (cstr "\x7d$x") []) ∧
      ¬ EvaluateEnds (fun _ => none) (cstr "\x7d$x") := by
  refine ⟨fun _ => rfl, ?_⟩
  rintro ⟨r, hr⟩
  have hcloses : chr '$' ∈ cString (cstr "\x7d$x") ∧ ClosesFirst (cString (cstr "\x7d$x")) := by
    refine ⟨by decide, ?_⟩
    change ClosesFirst (chr '\x7d' :: cstr "$x")
    rw [ClosesFirst, if_neg (by decide), if_neg (by decide), if_pos rfl]
    trivial
  exact Halting.not_results_of_closed (closesFirst_stays fun _ _ => rfl) hcloses r hr

end

end ScOpen
