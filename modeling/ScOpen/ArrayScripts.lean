import ScOpen.ArrayNames
import ScOpen.ForRounds
import ScOpen.ScriptStatements

/-!
# Scripts that fill arrays

A script fills an array with a `for` whose variable is in brackets in the name on the left of an
assignment. Where the loop has ended, each element within its limits has the value, and every other
variable is as it was.
-/

namespace ScOpen

/-! ## The script -/

open Expression (Operand)

def fillerTokens (fs : List Filler) : List Token := fs.flatMap Filler.tokens

def filled {σ : Type} (fs : List Filler) (next : Code σ) : Code σ := fs.foldr .filler next

structure ArrayLoop where
  name : ArrayName
  first : Operand
  limit : Operand
  value : Operand
  lines : List Filler
  lines' : List Filler

namespace ArrayLoop

variable (l : ArrayLoop)

def nameToken : NameToken :=
  ⟨⟨.variable_, l.name.token, fun h => by cases h⟩, .inr rfl⟩

def letPlace (start : ℕ) : ℕ := start + 6 + (fillerTokens l.lines).length

def head (L : ScriptLibrary) (start : ℕ) : ForHead (Option ScriptState) where
  name := l.name.index
  first := operandExpr L (start + 3) l.first
  limit := operandExpr L (start + 5) l.limit
  step := none
  put value user := L.put .user (start + 4) l.name.index value value.length user
  get user := L.get .user (start + 4) l.name.index user

def body (L : ScriptLibrary) (start : ℕ) : Code (Option ScriptState) :=
  filled l.lines (.statement (letStatement L (l.letPlace start) l.nameToken l.value)
    (filled l.lines' .done))

def code (L : ScriptLibrary) (start : ℕ) : Code (Option ScriptState) :=
  .forLoop (l.head L start) (l.body L start) .done

def tokens : List Token :=
  [mark .for_ for_hasText, word l.name.index, mark .assign assign_hasText, l.first.token,
    mark .to_ to_hasText, l.limit.token] ++ (fillerTokens l.lines ++
      ([mark .let_ let_hasText, l.nameToken.token, mark .assign assign_hasText, l.value.token] ++
        (fillerTokens l.lines' ++ [mark .next next_hasText, word l.name.index])))

end ArrayLoop

/-! ## The script as a program -/

section

variable {L : ScriptLibrary} {tokens : List Token}

theorem filled_tokens {σ : Type} (fs : List Filler) (next : Code σ) :
    (filled fs next).tokens = fillerTokens fs ++ next.tokens := by
  induction fs with
  | nil => rfl
  | cons f fs ih =>
      have hcons : (filled (f :: fs) next).tokens = f.tokens ++ (filled fs next).tokens := rfl
      rw [hcons, ih, fillerTokens, fillerTokens, List.flatMap_cons, List.append_assoc]

theorem filled_size {σ : Type} (fs : List Filler) (next : Code σ) :
    (filled fs next).size = (fillerTokens fs).length + next.size := by
  rw [← Code.length_tokens, ← Code.length_tokens, filled_tokens, List.length_append]

namespace ArrayLoop

variable (l : ArrayLoop) {start : ℕ} {pos : Position}

theorem body_size : (l.body L start).size =
    (fillerTokens l.lines).length + (4 + (fillerTokens l.lines').length) := by
  rw [body, filled_size, Code.size, filled_size]
  rfl

theorem code_size (L : ScriptLibrary) (start : ℕ) : (l.code L start).size =
    (fillerTokens l.lines).length + (fillerTokens l.lines').length + 12 := by
  rw [code, Code.size, body_size]
  simp only [head, ForHead.tokens, operandExpr, List.length_cons, List.length_append,
    List.length_nil, Option.elim, Code.size]
  omega

end ArrayLoop

/-! ## What the script sees -/

inductive ArrayName.Reads (a : ArrayName) (plain : Bytes → Prop) (memory : Bytes → Option Bytes) :
    Token → Bytes → Prop
  | text {t : Token} (ht : t.type ≠ .variable_) : a.Reads plain memory t t.text
  | variable_ {t : Token} {name value : Bytes} (ht : t.type = .variable_)
      (htext : t.text = chr '$' :: name) (hwords : ∀ c ∈ name, isWord c = true) (hne : name ≠ [])
      (hindex : name ≠ a.index) (hplain : plain name) (hmemory : memory name = some value)
      (hvalue : PlainValue value) : a.Reads plain memory t value

structure ArrayName.Filled (a : ArrayName) (memory : Bytes → Option Bytes) (value : Bytes)
    (first stop current : ℤ) (memory' : Bytes → Option Bytes) : Prop where
  index : memory' a.index = some (intText current)
  elements : ∀ k, first ≤ k → k < stop → memory' (a.element (intText k)) = some value
  others : ∀ name, name ≠ a.index →
    (∀ k, first ≤ k → k < stop → name ≠ a.element (intText k)) → memory' name = memory name

section

variable {a : ArrayName} {memory memory' : Bytes → Option Bytes} {value : Bytes}
  {first stop current : ℤ}

theorem ArrayName.Filled.put_element (h : a.Filled memory value first stop current memory')
    (hstop : first ≤ stop) :
    a.Filled memory value first (stop + 1) current
      (Function.update memory' (a.element (intText stop)) (some value)) := by
  refine ⟨?_, ?_, ?_⟩
  · rw [Function.update_of_ne (a.element_ne_index _).symm]
    exact h.index
  · intro k hk hlt
    by_cases hlast : k = stop
    · rw [hlast, Function.update_self]
    · have hne : a.element (intText k) ≠ a.element (intText stop) :=
        fun heq => hlast (intText_injective (a.element_injective heq))
      rw [Function.update_of_ne hne]
      exact h.elements k hk (by omega)
  · intro name hname hothers
    rw [Function.update_of_ne (hothers stop hstop (by omega))]
    exact h.others name hname fun k hk hlt => hothers k hk (by omega)

/-- What is read does not change while the array is filled. -/
theorem ArrayName.Reads.later {plain : Bytes → Prop} {t : Token} {w : Bytes}
    (hread : a.Reads plain memory t w) (h : a.Filled memory value first stop current memory') :
    a.Reads plain memory' t w := by
  cases hread with
  | text ht => exact .text ht
  | variable_ ht htext hwords hne hindex hplain hmemory hvalue =>
      refine .variable_ ht htext hwords hne hindex hplain ?_ hvalue
      rw [h.others _ hindex, hmemory]
      intro k _ _ heq
      have hmem : chr '[' ∈ a.element (intText k) := List.mem_append_right _ List.mem_cons_self
      rw [← heq] at hmem
      exact notMem_words hwords (by decide) hmem

/-! ## The tokens as the script reads them -/

variable {pos : Position} {plain : Bytes → Prop} {vars : ScriptState} {i : ℕ}

/-- A token is read as what the memory says. -/
theorem ScriptLibrary.Sees.reads (hfuel : 4 ≤ L.fuel) (h : L.Sees pos plain memory vars)
    (hi : L.Here pos i) {t : Token} (hread : a.Reads plain memory t value) :
    L.readText i t (some vars) = value := by
  obtain ⟨n, hn⟩ := Nat.exists_eq_add_of_le' hfuel
  cases hread with
  | text ht => exact if_neg ht
  | @variable_ name _ ht htext hwords hne hindex hplain hmemory hvalue =>
      have hself : cString name = name := cString_eq_self (plain_words hwords).1
      have hget : L.get .user i name (some vars) = some value := by
        have hget := h.get hi name (by rwa [hself])
        rwa [hself, hmemory] at hget
      have hone : OneReference [] name [] := by
        have hclear : Clear [] := ⟨0, rfl, fun _ => ⟨List.not_mem_nil, List.not_mem_nil⟩⟩
        have hnil : PlainValue [] := plain_words fun c hc => absurd hc List.not_mem_nil
        exact ⟨hclear, fun c hc => (by cases hc), hnil, hwords, hne, hnil⟩
      have hrun := @OneReference.evaluates (fun name => L.get .user i name (some vars)) _ _ _ hone _
        hget hvalue (n + 2)
      rw [ScriptLibrary.readText, if_pos ht, ScriptLibrary.evaluateToken, hn, htext]
      simpa using hrun

/-- The name on the left of the assignment. -/
theorem ScriptLibrary.Sees.element (hfuel : 4 ≤ L.fuel) (h : L.Sees pos plain memory vars)
    (hi : L.Here pos i) (hplain : plain a.index) {t : Token} (ht : t.type = .variable_)
    (htext : t.text = a.token) {k : ℤ} (hindex : memory a.index = some (intText k)) :
    L.readText i t (some vars) = a.element (intText k) := by
  obtain ⟨n, hn⟩ := Nat.exists_eq_add_of_le' hfuel
  have hself : cString a.index = a.index := cString_eq_self (plain_words a.index_words).1
  have hget : L.get .user i a.index (some vars) = some (intText k) := by
    have hget := h.get hi a.index (by rwa [hself])
    rwa [hself, hindex] at hget
  rw [ScriptLibrary.readText, if_pos ht, ScriptLibrary.evaluateToken, hn, htext]
  exact a.evaluates hget (plain_intText k) (n + 2)

/-! ## The loop -/

open Outcomes

structure ArrayLoop.Ready (l : ArrayLoop) (pos : Position) (plain : Bytes → Prop)
    (memory : Bytes → Option Bytes) (first limit : ℤ) (value : Bytes) : Prop where
  proper : pos.Proper
  index : plain l.name.index
  elements : ∀ k, first ≤ k → k ≤ limit → plain (l.name.element (intText k))
  readsFirst : l.name.Reads plain memory l.first.token (intText first)
  readsLimit : ∃ text, l.name.Reads plain memory l.limit.token text ∧ scanInt text = limit
  readsValue : l.name.Reads plain memory l.value.token value
  low : Expression.InInt first
  room : limit + 1 < 2 ^ 31

def ArrayLoop.Sees (l : ArrayLoop) (L : ScriptLibrary) (pos : Position) (plain : Bytes → Prop)
    (memory : Bytes → Option Bytes) (value : Bytes) (first stop current : ℤ)
    (user : Option ScriptState) : Prop :=
  ∃ vars memory', user = some vars ∧ L.Sees pos plain memory' vars ∧
    l.name.Filled memory value first stop current memory'

variable {l : ArrayLoop} {start : ℕ} {limit : ℤ}

/-- The assignment fills the next element. -/
theorem ArrayLoop.Sees.put_element (hready : l.Ready pos plain memory first limit value)
    (hi : L.Here pos i) {user : Option ScriptState} (hlow : first ≤ stop) (hhigh : stop ≤ limit)
    (h : l.Sees L pos plain memory value first stop current user) :
    l.Sees L pos plain memory value first (stop + 1) current
      (L.put .user i (l.name.element (intText stop)) value value.length user) := by
  obtain ⟨vars, memory', rfl, hsees, hfilled⟩ := h
  have hself : cString (l.name.element (intText stop)) = l.name.element (intText stop) :=
    cString_eq_self (l.name.plain_element (plain_intText stop)).1
  obtain ⟨vars', hput, hsees'⟩ := hsees.put hready.proper hi (l.name.element (intText stop))
    (by rw [hself]; exact hready.elements stop hlow hhigh) value value.length
  rw [hself, putValue_length] at hsees'
  exact ⟨vars', _, hput, hsees', hfilled.put_element hlow⟩

theorem ArrayLoop.length_tokens (l : ArrayLoop) (L : ScriptLibrary) (start : ℕ) :
    l.tokens.length = (l.code L start).size := by
  rw [l.code_size]
  simp only [ArrayLoop.tokens, List.length_append, List.length_cons, List.length_nil]
  omega

end

end

/-! ## A script -/

def quietOperations : Expression.Operations (Option ScriptState) where
  addSubMultDiv _ _ _ := none
  logicalBitwise _ _ _ := none
  onesComplement _ := none
  concat arg1 arg2 between := arg1 ++ between ++ arg2
  strCmp _ arg1 _ := arg1
  function _ _ _ _ _ user := ⟨1, [], none, user⟩

def quietScript : ScriptLibrary where
  store := plainLibrary
  search := SortedArray.bisection
  labels := []
  operations := quietOperations
  functionAt _ := 0
  takeArguments _ _ _ user := (0, 0, user)
  command _ p := ⟨0, false, p⟩
  staleIdx := none
  fuel := 4

end ScOpen
