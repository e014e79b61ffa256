import ScOpen.IntegerArithmetic

/-!
# The `parse` function

With three arguments the items of the string are stored as the elements of an array, with two they
are counted only. The call with three is told by its string, which is the last of the arguments
that are taken: where that is empty, the other two are taken for a string and its delimiters.
-/

namespace ScOpen.Expression

/-! ## Items -/

/-- `strtok()`: the next item of a text, and the text behind the delimiter that ends it. -/
def strtok (del text : Bytes) : Option (Bytes × Bytes) :=
  let text := text.dropWhile (· ∈ del)
  if text = [] then none
  else some (text.takeWhile (· ∉ del), (text.dropWhile (· ∉ del)).tail)

theorem strtok_lt {del text p rest : Bytes} (h : strtok del text = some (p, rest)) :
    rest.length < text.length := by
  have hle : (text.dropWhile (· ∈ del)).length ≤ text.length := List.length_dropWhile_le _ _
  simp only [strtok] at h
  generalize text.dropWhile (· ∈ del) = t at h hle
  cases t with
  | nil => cases h
  | cons c t =>
      rw [if_neg (List.cons_ne_nil _ _)] at h
      obtain ⟨-, rfl⟩ := Prod.mk.inj (Option.some.inj h)
      have hrest : ((c :: t).dropWhile (· ∉ del)).length ≤ (c :: t).length :=
        List.length_dropWhile_le _ _
      rw [List.length_tail]
      rw [List.length_cons] at hle hrest
      omega

def pieces (del text : Bytes) : List Bytes := (text.splitOnP (· ∈ del)).filter (· ≠ [])

section

variable {del : Bytes}

theorem pieces_delimiter {c : UInt8} (hc : c ∈ del) (text : Bytes) :
    pieces del (c :: text) = pieces del text := by
  simp [pieces, List.splitOnP_cons_eq_if_modifyHead, hc]

theorem pieces_dropWhile (text : Bytes) : pieces del (text.dropWhile (· ∈ del)) = pieces del text := by
  induction text with
  | nil => rfl
  | cons c text ih =>
      by_cases hc : c ∈ del
      · rw [List.dropWhile_cons_of_pos (by simpa using hc), ih, pieces_delimiter hc]
      · rw [List.dropWhile_cons_of_neg (by simpa using hc)]

/-- An item up to the end, or up to a delimiter. -/
theorem pieces_item {w : Bytes} (hw : w ≠ []) (hdel : ∀ c ∈ w, c ∉ del) :
    pieces del w = [w] ∧
      ∀ d ∈ del, ∀ rest, pieces del (w ++ d :: rest) = w :: pieces del rest := by
  have hnot : ∀ c ∈ w, decide (c ∈ del) = false := fun c hc => decide_eq_false (hdel c hc)
  constructor
  · rw [pieces, List.splitOnP_eq_singleton hnot]
    simp [hw]
  · intro d hd rest
    rw [pieces, List.splitOnP_append_cons_of_forall_mem hnot d (decide_eq_true hd)]
    simp [hw, pieces]

/-- One item comes off; what is left is shorter by the item and its delimiter. -/
theorem strtok_pieces (del text : Bytes) :
    strtok del text = none ∧ pieces del text = [] ∨
      ∃ p rest, strtok del text = some (p, rest) ∧ pieces del text = p :: pieces del rest ∧
        1 ≤ text.length ∧ (rest = [] ∨ rest.length + 2 ≤ text.length) := by
  rw [← pieces_dropWhile text, strtok]
  have hle : (text.dropWhile (· ∈ del)).length ≤ text.length := List.length_dropWhile_le _ _
  obtain ⟨-, -, -, hhead⟩ := exists_dropWhile (fun c => decide (c ∈ del)) text
  generalize text.dropWhile (· ∈ del) = t at hle hhead ⊢
  cases t with
  | nil => exact .inl ⟨rfl, rfl⟩
  | cons c t =>
      have hc : c ∉ del := of_decide_eq_false (hhead c t rfl)
      rw [if_neg (List.cons_ne_nil _ _)]
      refine .inr ⟨_, _, rfl, ?_⟩
      have hw : (c :: t).takeWhile (· ∉ del) ≠ [] := by
        rw [List.takeWhile_cons_of_pos (by simpa using hc)]
        exact List.cons_ne_nil _ _
      have hsplit : c :: t = (c :: t).takeWhile (· ∉ del) ++ (c :: t).dropWhile (· ∉ del) :=
        List.takeWhile_append_dropWhile.symm
      have hdel : ∀ b ∈ (c :: t).takeWhile (· ∉ del), b ∉ del := by
        intro b hb
        simpa using List.mem_takeWhile_imp hb
      obtain ⟨-, -, -, hnext⟩ := exists_dropWhile (fun c => decide (c ∉ del)) (c :: t)
      generalize (c :: t).takeWhile (· ∉ del) = w at hsplit hw hdel ⊢
      generalize (c :: t).dropWhile (· ∉ del) = r at hsplit hnext ⊢
      obtain ⟨hend, hgo⟩ := pieces_item hw hdel
      have hlength := congrArg List.length hsplit
      rw [List.length_append] at hlength
      have hpos : 0 < w.length := List.length_pos_of_ne_nil hw
      rw [hsplit]
      cases r with
      | nil =>
          rw [List.append_nil, hend]
          exact ⟨rfl, by omega, .inl rfl⟩
      | cons d r =>
          simp only [List.length_cons] at hlength hle
          have hd : d ∈ del := not_not.1 (of_decide_eq_false (hnext d r rfl))
          refine ⟨hgo d hd r, by omega, .inr ?_⟩
          rw [List.tail_cons]
          omega

theorem pieces_of_none {del text : Bytes} (h : strtok del text = none) : pieces del text = [] := by
  rcases strtok_pieces del text with ⟨-, hnil⟩ | ⟨p, rest, hsome, -⟩
  · exact hnil
  · rw [h] at hsome
    cases hsome

theorem pieces_of_some {del text p rest : Bytes} (h : strtok del text = some (p, rest)) :
    pieces del text = p :: pieces del rest := by
  rcases strtok_pieces del text with ⟨hnone, -⟩ | ⟨p', rest', hsome, hpieces, -⟩
  · rw [h] at hnone
    cases hnone
  · rw [h] at hsome
    cases hsome
    exact hpieces

theorem pieces_eq_nil_iff (del text : Bytes) : pieces del text = [] ↔ ∀ c ∈ text, c ∈ del := by
  have hnone : strtok del text = none ↔ ∀ c ∈ text, c ∈ del := by
    simp only [strtok, ite_eq_left_iff, reduceCtorEq, imp_false, not_not,
      List.dropWhile_eq_nil_iff, decide_eq_true_eq]
  rw [← hnone]
  refine ⟨fun h => ?_, pieces_of_none⟩
  rcases strtok_pieces del text with ⟨hnone, -⟩ | ⟨p, rest, -, hpieces, -⟩
  · exact hnone
  · rw [hpieces] at h
    cases h

/-- Behind each item but the last is a delimiter. -/
theorem length_pieces (del text : Bytes) : 2 * (pieces del text).length ≤ text.length + 1 := by
  induction h : text.length using Nat.strong_induction_on generalizing text with
  | _ n ih =>
  rcases strtok_pieces del text with ⟨-, hnil⟩ | ⟨p, rest, -, hpieces, hpos, hrest⟩
  · rw [hnil]
    exact Nat.zero_le _
  · rw [hpieces, List.length_cons]
    rcases hrest with rfl | hlt
    · change 2 * (0 + 1) ≤ _
      omega
    · have := ih rest.length (by omega) rest rfl
      omega

end

/-! ## The loops -/

section

variable {σ : Type} (put : Bytes → Bytes → σ → σ)

def elementName (name : Bytes) (j : ℤ) : Bytes := name ++ cstr "[" ++ intText j ++ cstr "]"

def parseItems (name del : Bytes) (j : ℕ) (text : Bytes) (user : σ) : ℕ × σ :=
  match _h : strtok del text with
  | none => (j, user)
  | some (p, rest) =>
      let j := (j + 1) % 2 ^ 32
      parseItems name del j rest (put (elementName name (int32 j)) p user)
termination_by text.length
decreasing_by exact strtok_lt _h

def countItems (del : Bytes) (j : ℕ) (text : Bytes) : ℕ :=
  match _h : strtok del text with
  | none => j
  | some (_, rest) => countItems del ((j + 1) % 2 ^ 32) rest
termination_by text.length
decreasing_by exact strtok_lt _h

/-- `TT_PARSE` in `solve_function()`, where `put` is `variable_put()` for `VT_USER`. -/
def solveParse (arg0 arg1 arg2 : Bytes) (user : σ) : FunctionResult σ :=
  if arg2.length ≠ 0 then
    let (j, user) := parseItems put (cString arg0) (cString arg1) 0 (cString arg2) user
    ⟨0, intText (int32 j), some .number, user⟩
  else ⟨0, intText (int32 (countItems (cString arg0) 0 (cString arg1))), some .number, user⟩

def putItems (name : Bytes) (j : ℕ) (ps : List Bytes) (user : σ) : σ :=
  (ps.zipIdx j).foldl (fun user p => put (elementName name p.2) p.1 user) user

variable {put}

theorem int32_natCast {j : ℕ} (h : j < 2 ^ 31) : int32 (j : ℤ) = j :=
  (int32_eq_iff _ _).2 ⟨⟨by omega, by omega⟩, rfl⟩

theorem parseItems_eq (name del : Bytes) (j : ℕ) (text : Bytes) (user : σ)
    (hfit : j + (pieces del text).length < 2 ^ 31) :
    parseItems put name del j text user =
      (j + (pieces del text).length, putItems put name (j + 1) (pieces del text) user) := by
  fun_induction parseItems put name del j text user with
  | case1 j text user hnone =>
      rw [pieces_of_none hnone]
      rfl
  | case2 j text user p rest hsome j' ih =>
      rw [pieces_of_some hsome, List.length_cons] at hfit ⊢
      have hj : j' = j + 1 := Nat.mod_eq_of_lt (by omega)
      rw [ih (by omega), hj, int32_natCast (by omega)]
      congr 1
      omega

theorem countItems_eq (del : Bytes) (j : ℕ) (text : Bytes)
    (hfit : j + (pieces del text).length < 2 ^ 31) :
    countItems del j text = j + (pieces del text).length := by
  fun_induction countItems del j text with
  | case1 j text hnone =>
      rw [pieces_of_none hnone]
      rfl
  | case2 j text p rest hsome ih =>
      rw [pieces_of_some hsome, List.length_cons] at hfit ⊢
      have hj : (j + 1) % 2 ^ 32 = j + 1 := Nat.mod_eq_of_lt (by omega)
      rw [hj] at ih ⊢
      rw [ih (by omega)]
      omega

theorem length_cString_le (text : Bytes) : (cString text).length ≤ text.length :=
  (List.takeWhile_prefix _).length_le

/-- No text of a buffer has more items than an `int` counts. -/
theorem pieces_fit (del : Bytes) {text : Bytes} (h : text.length + 1 < 2 ^ 32) :
    (pieces del (cString text)).length < 2 ^ 31 := by
  have hpieces := length_pieces del (cString text)
  have hlength := length_cString_le text
  omega

theorem solveParse_three {name del s : Bytes} (hs : s ≠ []) (hfit : s.length + 1 < 2 ^ 32)
    (user : σ) :
    solveParse put name del s user =
      ⟨0, intText (pieces (cString del) (cString s)).length, some .number,
        putItems put (cString name) 1 (pieces (cString del) (cString s)) user⟩ := by
  have hcount := pieces_fit (cString del) hfit
  rw [solveParse, if_pos (List.length_pos_of_ne_nil hs).ne',
    parseItems_eq _ _ _ _ _ (by rwa [Nat.zero_add])]
  dsimp only
  rw [Nat.zero_add, int32_natCast hcount]

theorem solveParse_two {del s : Bytes} (hfit : s.length + 1 < 2 ^ 32) (user : σ) :
    solveParse put del s [] user =
      ⟨0, intText (pieces (cString del) (cString s)).length, some .number, user⟩ := by
  have hcount := pieces_fit (cString del) hfit
  have hzero : ¬([] : Bytes).length ≠ 0 := not_not.2 rfl
  rw [solveParse, if_neg hzero, countItems_eq _ _ _ (by rwa [Nat.zero_add]), Nat.zero_add,
    int32_natCast hcount]

end

/-- The items of a string are stored as the elements from 1 on and counted exactly when there is a
string, or all delimiters are in the name of the array. They are counted without a name in any
case. -/
theorem parse_right_iff (del name s : Bytes) (hdel : del.length + 1 < 2 ^ 32)
    (hs : s.length + 1 < 2 ^ 32) :
    ((∀ (σ : Type) (put : Bytes → Bytes → σ → σ) (user : σ), solveParse put name del s user =
        ⟨0, intText (pieces (cString del) (cString s)).length, some .number,
          putItems put (cString name) 1 (pieces (cString del) (cString s)) user⟩) ↔
      s ≠ [] ∨ ∀ c ∈ cString del, c ∈ cString name) ∧
    ∀ (σ : Type) (put : Bytes → Bytes → σ → σ) (user : σ), solveParse put del s [] user =
      ⟨0, intText (pieces (cString del) (cString s)).length, some .number, user⟩ := by
  refine ⟨?_, fun σ put user => solveParse_two hs user⟩
  by_cases hempty : s = []
  · subst hempty
    have hnil : pieces (cString del) (cString []) = [] := rfl
    rw [← pieces_eq_nil_iff, hnil]
    constructor
    · intro h
      have htoken := congrArg FunctionResult.token (h Unit (fun _ _ => id) ())
      rw [solveParse_two hdel] at htoken
      have hcount : ((pieces (cString name) (cString del)).length : ℤ) = (0 : ℕ) :=
        intText_injective htoken
      exact .inr (List.eq_nil_of_length_eq_zero (Int.natCast_inj.1 hcount))
    · rintro (h | h) σ put user
      · exact absurd rfl h
      · rw [solveParse_two hdel, h]
        rfl
  · exact ⟨fun _ => .inl hempty, fun _ σ put user => solveParse_three hempty hs user⟩

theorem parse_right_blanks :
    ((∀ (σ : Type) (put : Bytes → Bytes → σ → σ) (user : σ),
        solveParse put (cstr "data") (cstr ", ") (cstr ", a,,b ") user =
          ⟨0, intText 2, some .number, putItems put (cstr "data") 1 [cstr "a", cstr "b"] user⟩) ↔
      cstr ", a,,b " ≠ [] ∨ ∀ c ∈ cString (cstr ", "), c ∈ cString (cstr "data")) ∧
    ∀ (σ : Type) (put : Bytes → Bytes → σ → σ) (user : σ),
      solveParse put (cstr ", ") (cstr ", a,,b ") [] user =
        ⟨0, intText 2, some .number, user⟩ :=
  parse_right_iff (cstr ", ") (cstr "data") (cstr ", a,,b ") (by decide) (by decide)

/-- `parse("", ",", data)` counts the items of its delimiters. -/
theorem parse_not_always_right :
    ¬∀ (del name s : Bytes), del.length + 1 < 2 ^ 32 → s.length + 1 < 2 ^ 32 →
      ∀ (σ : Type) (put : Bytes → Bytes → σ → σ) (user : σ), solveParse put name del s user =
        ⟨0, intText (pieces (cString del) (cString s)).length, some .number,
          putItems put (cString name) 1 (pieces (cString del) (cString s)) user⟩ := by
  intro h
  have htoken := congrArg FunctionResult.token
    (h (cstr ",") (cstr "data") [] (by decide) (by decide) Unit (fun _ _ => id) ())
  rw [solveParse_two (by decide)] at htoken
  have hcount : ((pieces (cstr "data") (cstr ",")).length : ℤ) = 0 := intText_injective htoken
  exact absurd hcount (by decide)

end ScOpen.Expression
