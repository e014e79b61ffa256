import ScOpen.IntegerValues
import ScOpen.SecsDecodeTurn

/-!
# The variables of a message

The temporary variables that stand for the integers of a message: each item is named by its
position in the lists around it, and the elements of an array are numbered. They tell the values:
two items whose variables start the same way have the same values.
-/

namespace ScOpen

def IntegerType.isArray (t : IntegerType) (n : ℕ) : Bool :=
  if t = .unsigned1 then 0 < n else 1 < n

def numbered (name : Bytes) (array : Bool) : ℕ → List Bytes → List TmpVariable
  | _, [] => []
  | i, text :: texts => (elementName name array i, text) :: numbered name array (i + 1) texts

def numberVars (t : IntegerType) (name : Bytes) (texts : List Bytes) : List TmpVariable :=
  (if texts = [] then [(name, [])] else []) ++ numbered name (t.isArray texts.length) 0 texts ++
    if t.isArray texts.length then
      [(name, cstr "ARRAY"), (name ++ cstr "[0]", intText texts.length)] else []

def Leaf.vars (name : Bytes) : Leaf → List TmpVariable
  | .integers t vs => numberVars t name (vs.map fun d => intText d.value)
  | _ => []

def positionName (name : Bytes) (i : ℕ) : Bytes := name ++ (cstr "." ++ intText i)

def Sml.vars (name : Bytes) : ℕ → Sml → List TmpVariable
  | _, .done => []
  | i, .list kids next =>
      (positionName name i, intText kids.count) :: kids.vars (positionName name i) 1 ++
        next.vars name (i + 1)
  | i, .leaf v next => v.vars (positionName name i) ++ next.vars name (i + 1)

theorem length_integers (t : IntegerType) (x : Decimal → ℤ) (vs : List Decimal) :
    (vs.flatMap fun d => integerBytes t.width (x d)).length = t.width * vs.length :=
  length_flatMap_const _ _ _ fun _ _ => length_integerBytes _ _

section

variable (fl : FloatText) (t : IntegerType)

theorem IntegerType.width_pos : 0 < t.width := t.elementType.width_pos

theorem IntegerType.kind_width : (t.elementType.kind fl).width = t.width :=
  t.elementType.kind_width fl

theorem IntegerType.kind_isArray (n : ℕ) :
    (t.elementType.kind fl).isArray (t.width * n) = t.isArray n := by
  cases t <;> simp only [IntegerType.elementType, ElementType.kind, unsigned1Kind, unsigned2Kind,
    unsigned4Kind, unsigned8Kind, signed1Kind, signed2Kind, signed4Kind, signed8Kind, numberKind,
    IntegerType.width, ElementType.width, IntegerType.isArray, reduceCtorEq, if_false, if_true,
    decide_eq_decide] <;> omega

theorem elementVars_integers (name : Bytes) (array : Bool) (n i : ℕ) (vs : List Decimal)
    (tail : Bytes) (hn : n ≤ vs.length) :
    elementVars (t.elementType.kind fl) name array n i
        ((vs.flatMap fun d => integerBytes t.width (d.stored t)) ++ tail) =
      numbered name array i ((vs.take n).map fun d => intText (t.wrap (d.stored t))) := by
  induction n generalizing i vs with
  | zero => rfl
  | succ n ih =>
      cases vs with
      | nil => simp at hn
      | cons d vs =>
          have htake : ∀ rest : Bytes,
              (integerBytes t.width (d.stored t) ++ rest).take t.width =
                integerBytes t.width (d.stored t) :=
            fun rest => List.take_left' (length_integerBytes _ _)
          have hdrop : ∀ rest : Bytes,
              (integerBytes t.width (d.stored t) ++ rest).drop t.width = rest :=
            fun rest => List.drop_left' (length_integerBytes _ _)
          simp only [elementVars, t.kind_width fl, List.flatMap_cons, List.append_assoc, htake,
            hdrop, t.kind_value fl (d.wrap_stored t), List.take_succ_cons, List.map_cons, numbered]
          rw [ih (i + 1) vs (by simpa using hn)]

/-- The decoder's variables for `n` of the values that the encoder has stored. -/
theorem elementItemVars_integers (name : Bytes) (n : ℕ) (vs : List Decimal) (tail : Bytes)
    (hn : n ≤ vs.length) :
    elementItemVars (t.elementType.kind fl) name (t.width * n)
        ((vs.flatMap fun d => integerBytes t.width (d.stored t)) ++ tail) =
      numberVars t name ((vs.take n).map fun d => intText (t.wrap (d.stored t))) := by
  have hpos := t.width_pos
  have hdiv : t.width * n / t.width = n := Nat.mul_div_cancel_left n hpos
  have hempty : (t.elementType.kind fl).emptyVariable = true := by cases t <;> rfl
  have hwhole : (t.elementType.kind fl).wholeVariable = false := by cases t <;> rfl
  have hlength : ((vs.take n).map fun d => intText (t.wrap (d.stored t))).length = n := by
    simpa using hn
  have hnil : ((vs.take n).map fun d => intText (t.wrap (d.stored t))) = [] ↔ t.width * n = 0 := by
    rw [← List.length_eq_zero_iff, hlength, Nat.mul_eq_zero]
    omega
  have hcount : myItoa (n : ℕ) = intText n := myItoa_eq_intText (by omega)
  simp only [elementItemVars, numberVars, hempty, hwhole, t.kind_width fl, t.kind_isArray fl, hdiv,
    elementVars_integers fl t _ _ _ _ _ _ hn, hlength, hnil, hcount, and_true, Bool.false_eq_true,
    false_and, if_false, List.append_nil]

end

/-! ## Telling the values from the variables -/

theorem elementName_ne (name : Bytes) (i : ℕ) : elementName name true i ≠ name := by
  intro h
  have hlen := congrArg List.length h
  simp [elementName, myItoaFmt1] at hlen

theorem numbered_inj {name : Bytes} {i : ℕ} {texts texts' : List Bytes} {x x' : Bytes}
    {vars vars' : List TmpVariable}
    (h : numbered name true i texts ++ (name, x) :: vars =
      numbered name true i texts' ++ (name, x') :: vars') : texts = texts' := by
  induction texts generalizing i texts' with
  | nil =>
      cases texts' with
      | nil => rfl
      | cons text' texts' =>
          simp only [numbered, List.nil_append, List.cons_append, List.cons.injEq,
            Prod.mk.injEq] at h
          exact (elementName_ne name i h.1.1.symm).elim
  | cons text texts ih =>
      cases texts' with
      | nil =>
          simp only [numbered, List.nil_append, List.cons_append, List.cons.injEq,
            Prod.mk.injEq] at h
          exact (elementName_ne name i h.1.1).elim
      | cons text' texts' =>
          simp only [numbered, List.cons_append, List.cons.injEq, Prod.mk.injEq] at h
          rw [h.1.2, ih h.2]

theorem numberVars_array {t : IntegerType} {texts : List Bytes} (name : Bytes)
    (h : t.isArray texts.length = true) :
    ∃ text texts', texts = text :: texts' ∧ numberVars t name texts =
      numbered name true 0 texts ++
        (name, cstr "ARRAY") :: [(name ++ cstr "[0]", intText texts.length)] := by
  cases texts with
  | nil => cases t <;> cases h
  | cons text texts =>
      refine ⟨text, texts, rfl, ?_⟩
      rw [numberVars, h, if_neg (List.cons_ne_nil _ _), if_pos rfl]
      rfl

theorem numberVars_single {t : IntegerType} {texts : List Bytes} (name : Bytes)
    (h : t.isArray texts.length = false) :
    texts = [] ∧ numberVars t name texts = [(name, [])] ∨
      ∃ text, texts = [text] ∧ numberVars t name texts = [(name, text)] := by
  rcases texts with _ | ⟨text, _ | ⟨text', texts⟩⟩
  · left
    refine ⟨rfl, ?_⟩
    rw [numberVars, h]
    rfl
  · right
    refine ⟨text, rfl, ?_⟩
    rw [numberVars, h]
    rfl
  · have harray : t.isArray (text :: text' :: texts).length = true := by
      cases t <;> simp [IntegerType.isArray]
    rw [harray] at h
    cases h

theorem array_ne_single {t : IntegerType} {name : Bytes} {texts texts' : List Bytes}
    {vars vars' : List TmpVariable} (harray : t.isArray texts.length = true)
    (hsingle : t.isArray texts'.length = false) :
    numberVars t name texts ++ vars ≠ numberVars t name texts' ++ vars' := by
  intro h
  obtain ⟨text, rest, rfl, heq⟩ := numberVars_array name harray
  rcases numberVars_single name hsingle with ⟨-, heq'⟩ | ⟨text', -, heq'⟩
  · rw [heq, heq'] at h
    simp only [numbered, List.cons_append, List.cons.injEq, Prod.mk.injEq] at h
    exact elementName_ne name 0 h.1.1
  · rw [heq, heq'] at h
    simp only [numbered, List.cons_append, List.cons.injEq, Prod.mk.injEq] at h
    exact elementName_ne name 0 h.1.1

/-- The variables of an item tell its values, whatever variables follow them. -/
theorem numberVars_inj {t : IntegerType} {name : Bytes} {texts texts' : List Bytes}
    {vars vars' : List TmpVariable} (hne : [] ∉ texts) (hne' : [] ∉ texts')
    (h : numberVars t name texts ++ vars = numberVars t name texts' ++ vars') :
    texts = texts' := by
  cases harray : t.isArray texts.length with
  | true =>
      cases harray' : t.isArray texts'.length with
      | true =>
          obtain ⟨-, -, -, heq⟩ := numberVars_array name harray
          obtain ⟨-, -, -, heq'⟩ := numberVars_array name harray'
          rw [heq, heq', List.append_assoc, List.append_assoc] at h
          exact numbered_inj h
      | false => exact (array_ne_single harray harray' h).elim
  | false =>
      cases harray' : t.isArray texts'.length with
      | true => exact (array_ne_single harray' harray h.symm).elim
      | false =>
          rcases numberVars_single name harray with ⟨rfl, heq⟩ | ⟨text, rfl, heq⟩ <;>
            rcases numberVars_single name harray' with ⟨rfl, heq'⟩ | ⟨text', rfl, heq'⟩
          · rfl
          · rw [heq, heq'] at h
            simp_all
          · rw [heq, heq'] at h
            simp_all
          · rw [heq, heq'] at h
            simp_all

end ScOpen
