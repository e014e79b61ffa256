import ScOpen.IntegerValues
import ScOpen.ScriptLanguage
import ScOpen.TokenValues

/-!
# The names of array elements

An array is a family of variables with numbers in their names. A token with a variable in brackets
is evaluated to the name of the element that has the value of the variable for its number.
-/

namespace ScOpen

structure ArrayName where
  before : Bytes
  index : Bytes
  after : Bytes
  words : ∀ c ∈ before ++ (index ++ after), isWord c = true
  index_ne_nil : index ≠ []

def ArrayName.token (a : ArrayName) : Bytes :=
  a.before ++ chr '[' :: chr '$' :: (a.index ++ chr ']' :: a.after)

def ArrayName.element (a : ArrayName) (number : Bytes) : Bytes :=
  a.before ++ chr '[' :: (number ++ chr ']' :: a.after)

/-! ## Tokens with one reference -/

def PlainValue (value : Bytes) : Prop := 0 ∉ value ∧ chr '$' ∉ value ∧ 255 ∉ value

def EndsReference (right : Bytes) : Prop := ∀ c ∈ right.head?, isClosing c = true

section

variable {variableGet : Bytes → Option Bytes} {left name right : Bytes}

theorem notMem_words {text : Bytes} (h : ∀ c ∈ text, isWord c = true) {d : UInt8}
    (hd : isWord d = false) : d ∉ text :=
  fun hmem => isWord_ne (h d hmem) hd rfl

theorem plain_words {text : Bytes} (h : ∀ c ∈ text, isWord c = true) : PlainValue text :=
  ⟨notMem_words h (by decide), notMem_words h (by decide), notMem_words h (by decide)⟩

theorem PlainValue.append {v w : Bytes} (hv : PlainValue v) (hw : PlainValue w) :
    PlainValue (v ++ w) := by
  simp only [PlainValue, List.mem_append, not_or]
  exact ⟨⟨hv.1, hw.1⟩, ⟨hv.2.1, hw.2.1⟩, hv.2.2, hw.2.2⟩

theorem plain_brackets : PlainValue [chr '['] ∧ PlainValue [chr ']'] :=
  ⟨⟨by decide, by decide, by decide⟩, ⟨by decide, by decide, by decide⟩⟩

theorem isIndex_words {text : Bytes} (h : ∀ c ∈ text, isWord c = true) : IsIndex text := by
  induction text with
  | nil => rfl
  | cons c text ih =>
      obtain ⟨hc, hrest⟩ := List.forall_mem_cons.1 h
      rw [IsIndex, isIndexFrom, if_neg (isWord_ne hc (by decide)), if_neg (isWord_ne hc (by decide)),
        hc, Bool.true_and]
      exact ih hrest

theorem openBrackets_words {text : Bytes} (h : ∀ c ∈ text, isWord c = true) (depth : ℕ)
    (rest : Bytes) : openBrackets depth (text ++ rest) = openBrackets depth rest := by
  induction text with
  | nil => rfl
  | cons c text ih =>
      obtain ⟨hc, hrest⟩ := List.forall_mem_cons.1 h
      have hopening : ¬(c = chr '[' ∨ c = chr '\x7b') := by
        rintro (rfl | rfl)
        · exact absurd hc (by decide)
        · exact absurd hc (by decide)
      have hclosing : isClosing c = false := by
        refine decide_eq_false ?_
        rintro (rfl | rfl)
        · exact absurd hc (by decide)
        · exact absurd hc (by decide)
      rw [List.cons_append, openBrackets, if_neg hopening, hclosing, if_neg Bool.false_ne_true]
      exact ih hrest

structure OneReference (left name right : Bytes) : Prop where
  clear : Clear left
  ends : EndsReference right
  left : PlainValue left
  words : ∀ c ∈ name, isWord c = true
  name_ne_nil : name ≠ []
  right : PlainValue right

theorem OneReference.first (h : OneReference left name right) :
    firstByte (name ++ right) ≠ chr '$' := by
  rw [firstByte_append h.name_ne_nil]
  exact firstByte_ne (plain_words h.words).2.1

theorem OneReference.stands (h : OneReference left name right) :
    ∃ s, Stands true left s ∧ s.Begins := by
  obtain ⟨s, hstands, hbegins, -⟩ := stands_of_clear h.left.1 h.clear
  rw [marked_eq h.left.2.1] at hstands
  exact ⟨s, hstands, hbegins⟩

theorem OneReference.endsLook (h : OneReference left name right) (s : LookState) (i n : ℕ) :
    EndsLook right (s.behind i name n) := by
  cases right with
  | nil => exact endsLook_nil _
  | cons c right => exact endsLook_closing (h.ends c rfl) rfl right

/-- `look()` finds the name. -/
theorem OneReference.look_name (h : OneReference left name right) :
    (look (left ++ chr '$' :: (name ++ right))).name = name := by
  obtain ⟨s, hstands, hbegins⟩ := h.stands
  have hnamed : Named name name := Named.index (isIndex_words h.words)
  have hlook := (hstands.begin hbegins 0).look (name ++ right) fun _ => h.first
  rw [lookFrom_over hnamed.dollar (hnamed.passes _ (hbegins.within _))] at hlook
  have hends := hlook.trans (h.endsLook s _ _ _)
  have htoken : left ++ chr '$' :: (name ++ right) =
      left ++ (List.replicate 0 (chr '$') ++ [chr '$']) ++ (name ++ right) := by simp
  rw [htoken, hends]
  rfl

/-- One turn puts the value in the place of the reference. -/
theorem OneReference.evaluateStep (h : OneReference left name right) {value : Bytes}
    (hget : variableGet name = some value) (hvalue : 0 ∉ value) :
    evaluateStep variableGet (left ++ chr '$' :: (name ++ right)) =
      .inl (left ++ (marked value ++ right)) := by
  have hzero : ∀ name' v, (if name' = name then some value else none) = some v → 0 ∉ v := by
    intro name' v h
    by_cases hname : name' = name
    · rw [if_pos hname] at h
      cases h
      exact hvalue
    · rw [if_neg hname] at h
      cases h
  let vars : UserVariables := ⟨fun name' => if name' = name then some value else none, hzero⟩
  have hself : vars.get name = some value := if_pos rfl
  have hturn : evaluateTurn variableGet (left ++ chr '$' :: (name ++ right)) =
      evaluateTurn vars.get (left ++ chr '$' :: (name ++ right)) := by
    rw [evaluateTurn, evaluateTurn, h.look_name, hget, hself]
  obtain ⟨s, hstands, hbegins⟩ := h.stands
  have hnamed : Named name name := Named.index (isIndex_words h.words)
  have hstep := evaluateStep_reference vars hstands hbegins hnamed 0 h.right.1 h.first
    (h.endsLook s _ _)
  rw [variableValue, hself, Option.getD_some, List.replicate_zero, List.nil_append,
    List.nil_append] at hstep
  obtain ⟨hdollar, hresult⟩ := evaluateStep_inl hstep
  rw [ScOpen.evaluateStep, if_pos hdollar, hturn, hresult]

/-- The value takes the place of the reference, and the token is done. -/
theorem OneReference.evaluates (h : OneReference left name right) {value : Bytes}
    (hget : variableGet name = some value) (hvalue : PlainValue value) (n : ℕ) :
    evaluateRounds variableGet (n + 2) (left ++ chr '$' :: (name ++ right)) =
      left ++ (value ++ right) := by
  have hfound := h.evaluateStep hget hvalue.1
  rw [marked_eq hvalue.2.1] at hfound
  have hplain := h.left.append (hvalue.append h.right)
  have hno : chr '$' ∉ cString (left ++ (value ++ right)) := by
    rw [cString_eq_self hplain.1]
    exact hplain.2.1
  have hself : replaceChar 255 (chr '$') (left ++ (value ++ right)) =
      left ++ (value ++ right) := by
    rw [replaceChar, cString_eq_self hplain.1, List.drop_length, List.append_nil]
    refine (List.map_congr_left fun c hc => ?_).trans (List.map_id _)
    refine if_neg ?_
    rintro rfl
    exact hplain.2.2 hc
  rw [evaluateRounds, hfound]
  dsimp only
  rw [evaluateRounds, ScOpen.evaluateStep, if_neg hno, hself]

/-! ## The names of elements -/

variable (a : ArrayName)

theorem ArrayName.before_words : ∀ c ∈ a.before, isWord c = true :=
  fun c hc => a.words c (List.mem_append_left _ hc)

theorem ArrayName.index_words : ∀ c ∈ a.index, isWord c = true :=
  fun c hc => a.words c (List.mem_append_right _ (List.mem_append_left _ hc))

theorem ArrayName.after_words : ∀ c ∈ a.after, isWord c = true :=
  fun c hc => a.words c (List.mem_append_right _ (List.mem_append_right _ hc))

theorem ArrayName.oneReference :
    OneReference (a.before ++ [chr '[']) a.index (chr ']' :: a.after) := by
  have hclear : Clear (a.before ++ [chr '[']) := by
    refine ⟨1, ?_, fun h => by cases h⟩
    rw [openBrackets_words a.before_words]
    rfl
  have hends : EndsReference (chr ']' :: a.after) := by
    intro c hc
    cases hc
    rfl
  exact ⟨hclear, hends, (plain_words a.before_words).append plain_brackets.1, a.index_words,
    a.index_ne_nil, plain_brackets.2.append (plain_words a.after_words)⟩

/-- The number is in the name of the element. -/
theorem ArrayName.evaluates {value : Bytes} (hget : variableGet a.index = some value)
    (hvalue : PlainValue value) (n : ℕ) :
    evaluateRounds variableGet (n + 2) a.token = a.element value := by
  have hname := a.oneReference.evaluates hget hvalue n
  rw [List.append_assoc, List.append_assoc] at hname
  exact hname

theorem ArrayName.plain_element {value : Bytes} (h : PlainValue value) :
    PlainValue (a.element value) := by
  have hplain := a.oneReference.left.append (h.append a.oneReference.right)
  rw [List.append_assoc] at hplain
  exact hplain

theorem ArrayName.element_injective : Function.Injective a.element := by
  intro v w h
  have htail := (List.cons.inj (List.append_cancel_left h)).2
  exact List.append_cancel_right htail

theorem ArrayName.element_ne_index (value : Bytes) : a.element value ≠ a.index := by
  intro h
  have hmem : chr '[' ∈ a.index := by
    rw [← h]
    exact List.mem_append_right _ List.mem_cons_self
  exact notMem_words a.index_words (by decide) hmem

theorem plain_intText (v : ℤ) : PlainValue (intText v) := by
  have hmem : ∀ c ∈ intText v, c = chr '-' ∨ IsDigit c := by
    intro c hc
    rw [intText] at hc
    split_ifs at hc with hneg
    · rcases List.mem_cons.1 hc with rfl | hc
      · exact .inl rfl
      · exact .inr (isDigit_of_mem_decimal hc)
    · exact .inr (isDigit_of_mem_decimal hc)
  have hnot : ∀ d : UInt8, d ≠ chr '-' → ¬IsDigit d → d ∉ intText v :=
    fun d hminus hdigit hd => (hmem d hd).elim hminus hdigit
  exact ⟨hnot 0 (by decide) (by decide), hnot _ (by decide) (by decide),
    hnot 255 (by decide) (by decide)⟩

end

end ScOpen
