import ScOpen.SecsDecodersAgree

/-!
# The variables of an item with elements

Scripts read a received item by one rule, whatever its type is: a single value is in the variable of
the item's name, several are numbered from 1 beside their count, and none is an empty variable. The
decoder has a branch for each type, and two kinds of them do not keep to the rule.
-/

namespace ScOpen

def elementValues (k : ElementKind) : ℕ → Bytes → List Bytes
  | 0, _ => []
  | n + 1, p => k.value (p.take k.width) :: elementValues k n (p.drop k.width)

def indexName (name : Bytes) (i : ℕ) : Bytes := name ++ chr '[' :: (decimal i ++ [chr ']'])

def ruleVars (t : ElementType) (name data : Bytes) : List Bytes → List TmpVariable
  | [] => [(name, [])]
  | [text] => [(name, text)]
  | texts => (name, cstr "ARRAY") :: (indexName name 0, decimal texts.length) ::
      ((texts.zipIdx 1).map (fun v => (indexName name v.2, v.1)) ++
        if t = .binary then [(name ++ cstr "[]", data.flatMap myBtoh)] else [])

/-- These variables have been added for an item with elements: those of the rule and no others. -/
def StoredByRule (fl : FloatText) (t : ElementType) (name : Bytes) (size : ℕ) (body : Bytes)
    (before after : List TmpVariable) : Prop :=
  ∃ added, after = before ++ added ∧
    added.Perm (ruleVars t name (body.take size) (elementValues (t.kind fl) (size / t.width) body))

def KeepsRule (t : ElementType) (size : ℕ) : Prop :=
  1 < size / t.width ∨ size = t.width ∧ t ≠ .unsigned1 ∨ size = 0 ∧ t ≠ .float4 ∧ t ≠ .float8

theorem length_elementValues (k : ElementKind) (n : ℕ) (p : Bytes) :
    (elementValues k n p).length = n := by
  induction n generalizing p with
  | zero => rfl
  | succ n ih => rw [elementValues, List.length_cons, ih]

theorem length_elementVars (k : ElementKind) (name : Bytes) (array : Bool) (n i : ℕ) (p : Bytes) :
    (elementVars k name array n i p).length = n := by
  induction n generalizing i p with
  | zero => rfl
  | succ n ih => rw [elementVars, List.length_cons, ih]

theorem elementName_array (name : Bytes) (i : ℕ) :
    elementName name true i = indexName name (i + 1) := by
  have hdecimal := myItoa_natCast (i + 1)
  rw [Nat.cast_add, Nat.cast_one] at hdecimal
  rw [elementName, if_pos rfl, myItoaFmt1, hdecimal]
  rfl

theorem elementVars_array (k : ElementKind) (name : Bytes) (n i : ℕ) (p : Bytes) :
    elementVars k name true n i p =
      ((elementValues k n p).zipIdx (i + 1)).map fun v => (indexName name v.2, v.1) := by
  induction n generalizing i p with
  | zero => rfl
  | succ n ih =>
      rw [elementVars, elementValues, List.zipIdx_cons, List.map_cons, elementName_array, ih]

/-- What an array's count and its elements come to, in the order in which they are added. -/
theorem ruleVars_array (t : ElementType) (name data : Bytes) {texts : List Bytes}
    (h : 1 < texts.length) :
    ruleVars t name data texts = (name, cstr "ARRAY") :: (indexName name 0, decimal texts.length) ::
      ((texts.zipIdx 1).map (fun v => (indexName name v.2, v.1)) ++
        if t = .binary then [(name ++ cstr "[]", data.flatMap myBtoh)] else []) := by
  cases texts with
  | nil => cases h
  | cons text texts =>
      cases texts with
      | nil => exact absurd h (Nat.lt_irrefl 1)
      | cons _ _ => rfl

section

variable (fl : FloatText) (t : ElementType)

theorem kind_isArray {size : ℕ} (h : 1 < size / t.width) : (t.kind fl).isArray size = true := by
  have hle := Nat.div_mul_le_self size t.width
  have hmul : 2 * t.width ≤ size / t.width * t.width := Nat.mul_le_mul_right _ h
  have hpos := t.width_pos
  have hsize : 2 * t.width ≤ size := hmul.trans hle
  cases t <;> exact decide_eq_true (by
    simp only [ElementType.width] at hsize
    omega)

theorem kind_not_isArray (h : t ≠ .unsigned1) : (t.kind fl).isArray t.width = false := by
  cases t <;> first
    | exact absurd rfl h
    | rfl

/-- A single element makes an array in a `U1` item, and where bytes are left over. -/
theorem kind_isArray_one {size : ℕ} (h : size / t.width = 1)
    (hnot : size = t.width → t = .unsigned1) : (t.kind fl).isArray size = true := by
  have hle := Nat.div_mul_le_self size t.width
  rw [h, Nat.one_mul] at hle
  cases t <;> refine decide_eq_true ?_ <;>
    simp only [ElementType.width, reduceCtorEq, imp_false, implies_true] at hle hnot ⊢ <;> omega

theorem kind_isArray_zero {size : ℕ} (h : size / t.width = 0) :
    (t.kind fl).isArray size = false := by
  have hlt : size < t.width := by
    rwa [Nat.div_eq_zero_iff_lt t.width_pos] at h
  cases t <;> refine decide_eq_false ?_ <;> simp only [ElementType.width] at hlt ⊢ <;> omega

theorem kind_wholeVariable : (t.kind fl).wholeVariable = decide (t = .binary) := by
  cases t <;> rfl

theorem kind_emptyVariable :
    (t.kind fl).emptyVariable = decide (t ≠ .float4 ∧ t ≠ .float8) := by
  cases t <;> rfl

variable {fl t} {name body : Bytes} {size : ℕ}

theorem keepsRule_vars (h : KeepsRule t size) :
    (elementItemVars (t.kind fl) name size body).Perm
      (ruleVars t name (body.take size) (elementValues (t.kind fl) (size / t.width) body)) := by
  rcases h with hmany | ⟨rfl, hunsigned⟩ | ⟨rfl, hfloats⟩
  · have harray := kind_isArray fl t hmany
    have hsize : ¬ size = 0 := by
      rintro rfl
      rw [Nat.zero_div] at hmany
      cases hmany
    have hlength : 1 < (elementValues (t.kind fl) (size / t.width) body).length := by
      rwa [length_elementValues]
    have hcount : myItoa ((size / t.width : ℕ) : ℤ) = decimal (size / t.width) := myItoa_natCast _
    have hzero : name ++ cstr "[0]" = indexName name 0 := by
      rw [indexName, decimal, if_pos (by decide)]
      rfl
    rw [ruleVars_array t name _ hlength, length_elementValues, elementItemVars, harray,
      t.kind_width fl, kind_wholeVariable, elementVars_array, hcount, hzero]
    simp only [hsize, false_and, if_false, List.nil_append, decide_eq_true_eq, and_true, if_true]
    exact List.perm_append_comm
  · have harray := kind_not_isArray fl t hunsigned
    have hne : t.width ≠ 0 := t.width_pos.ne'
    rw [elementItemVars, harray, t.kind_width fl, Nat.div_self t.width_pos]
    simp only [hne, false_and, and_false, Bool.false_eq_true, if_false, List.nil_append,
      List.append_nil]
    exact .refl _
  · have harray := kind_isArray_zero fl t (Nat.zero_div t.width)
    have hempty : (t.kind fl).emptyVariable = true := by
      rw [kind_emptyVariable]
      exact decide_eq_true hfloats
    rw [elementItemVars, harray, t.kind_width fl, Nat.zero_div, hempty]
    simp only [and_self, Bool.false_eq_true, if_true, if_false, and_false]
    exact .refl _

/-- In every other case there are more or fewer variables than the rule has. -/
theorem keepsRule_of_vars
    (h : (elementItemVars (t.kind fl) name size body).Perm
      (ruleVars t name (body.take size) (elementValues (t.kind fl) (size / t.width) body))) :
    KeepsRule t size := by
  by_contra hnot
  simp only [KeepsRule, not_or, not_and, not_not, not_lt] at hnot
  obtain ⟨hfew, hone, hnone⟩ := hnot
  have hlength := h.length_eq
  rcases Nat.lt_or_eq_of_le hfew with hzero | hsingle
  · have hcount : size / t.width = 0 := Nat.lt_one_iff.1 hzero
    have harray := kind_isArray_zero fl t hcount
    rw [elementItemVars, harray, t.kind_width fl, hcount, kind_emptyVariable] at hlength
    have hempty : ¬ (size = 0 ∧ decide (t ≠ .float4 ∧ t ≠ .float8) = true) := by
      rintro ⟨hsize, hfloats⟩
      obtain ⟨h4, h8⟩ := of_decide_eq_true hfloats
      exact h8 (hnone hsize h4)
    rw [if_neg hempty] at hlength
    simp [elementVars, elementValues, ruleVars] at hlength
  · have harray := kind_isArray_one fl t hsingle hone
    rw [elementItemVars, harray, t.kind_width fl, hsingle] at hlength
    simp only [List.length_append, length_elementVars, if_true, List.length_cons, List.length_nil,
      elementValues, ruleVars] at hlength
    omega

end

/-! ## A turn of the decoder -/

/-- The variables that a turn adds for an item with elements. -/
theorem decodeTurn_vars {fl : FloatText} {varPrefix : Bytes} {st st' : DecodeState}
    {rest body : Bytes} {h : Header} {t : ElementType} (hlen : rest.length < 2 ^ 32)
    (hcursor : st.cursor = cursorAt rest) (hh : takeHeader rest = some (h, body))
    (ht : secsType? h.code = some (.elements t))
    (hturn : decodeTurn fl varPrefix st = .ok (.next st')) :
    st'.vars =
      st.vars ++ elementItemVars (t.kind fl) (nextName varPrefix st.frames) h.size body := by
  have hne : st.frames ≠ [] := by
    intro hnil
    obtain ⟨⟨code, size, cursor⟩, -, hrun⟩ := bind_ok_iff.1 hturn
    rw [hnil] at hrun
    cases hrun
  obtain ⟨h', body', hh', hfits, hown⟩ := fits_of_decodeTurn fl varPrefix hcursor hturn
  rw [hh] at hh'
  cases hh'
  rw [ht] at hown
  have hlen' : body.length < 2 ^ 32 := (takeHeader_length hh).trans hlen
  have hterm := hfits.line (by rw [ht]; exact Option.some_ne_none _)
  have hdata : (t.kind fl).width * (h.size / (t.kind fl).width) ≤ body.length := by
    rw [t.kind_width fl]
    exact hown
  rw [decodeTurn_eq fl varPrefix hlen hcursor hne hh hfits.name hfits.column, ht] at hturn
  obtain ⟨st₁, hbranch, hret⟩ := bind_ok_iff.1 hturn
  cases hret
  obtain ⟨log, hitem⟩ := decodeElementItem_ok (t.kind fl) (nextName varPrefix st.frames) h.size
    ⟨cursorAt body, entered st.frames,
      writePad st.pad (padColumn st.frames) (nextName varPrefix st.frames), st.log, st.vars⟩
    body hlen' rfl hdata hterm (hfits.elements t ht)
  rw [decodeBranch, ← bind_assoc, hitem] at hbranch
  exact closeLists_vars hbranch

/-- An item with elements is stored by the rule exactly when its length is that of several elements,
of one in a type other than `U1`, or zero in a type other than `F4` and `F8`. -/
theorem stored_by_rule_iff {fl : FloatText} {varPrefix : Bytes} {st st' : DecodeState}
    {rest body : Bytes} {h : Header} {t : ElementType} (hlen : rest.length < 2 ^ 32)
    (hcursor : st.cursor = cursorAt rest) (hh : takeHeader rest = some (h, body))
    (ht : secsType? h.code = some (.elements t))
    (hturn : decodeTurn fl varPrefix st = .ok (.next st')) :
    StoredByRule fl t (nextName varPrefix st.frames) h.size body st.vars st'.vars ↔
      KeepsRule t h.size := by
  have hvars := decodeTurn_vars hlen hcursor hh ht hturn
  constructor
  · rintro ⟨added, hadded, hperm⟩
    rw [hvars, List.append_cancel_left_eq] at hadded
    rw [← hadded] at hperm
    exact keepsRule_of_vars hperm
  · intro hkeeps
    exact ⟨_, hvars, keepsRule_vars hkeeps⟩

/-! ## Two items -/

def inFront (rest : Bytes) : DecodeState :=
  ⟨cursorAt rest, [⟨0, 0⟩], List.replicate padSize none, [], []⟩

theorem elementName_short {array : Bool} {i : ℕ} (hi : i < 9) :
    (elementName (cstr "S1F1.1") array i).length < 256 := by
  have hdigit := @myItoa_digit (i + 1) (by omega)
  rw [Nat.cast_add, Nat.cast_one] at hdigit
  cases array with
  | false =>
      rw [elementName, if_neg Bool.false_ne_true]
      decide
  | true =>
      rw [elementName, if_pos rfl, myItoaFmt1, hdigit]
      simp [cstr]

/-- A first item of one element is taken. -/
theorem decodeTurn_inFront (fl : FloatText) {rest body : Bytes} {h : Header} {t : ElementType}
    (hlen : rest.length < 2 ^ 32) (hh : takeHeader rest = some (h, body))
    (ht : secsType? h.code = some (.elements t)) (hone : h.size / t.width = 1)
    (hown : t.width ≤ body.length) :
    ∃ st', decodeTurn fl (cstr "S1F1") (inFront rest) = .ok (.next st') := by
  have hnames : ElementNamesFit (t.kind fl) (cstr "S1F1.1") h.size := by
    refine ⟨fun i hi => elementName_short ?_, fun _ _ => by decide, fun _ => by decide⟩
    rw [t.kind_width fl, hone] at hi
    omega
  have hfits : HeaderFits fl (cstr "S1F1") [⟨0, 0⟩] (List.replicate padSize none) h := by
    refine headerFits_s1f1 fl _ fun t' ht' => ?_
    rw [ht] at ht'
    cases ht'
    exact hnames
  have hbytes : (SecsType.elements t).ownBytes h.size ≤ body.length := by
    rw [SecsType.ownBytes, hone, Nat.mul_one]
    exact hown
  have hopen : framesAfter (.elements t) h.size [⟨0, 0⟩] ≠ [] := by
    rw [framesAfter, opened_elements _ _ _ SecsType.noConfusion]
    decide
  obtain ⟨log, hturn⟩ := @decodeTurn_ok fl (cstr "S1F1") (inFront rest) _ _ _ _ hlen rfl hh ht
    hbytes hfits hopen (List.cons_ne_nil _ _)
  exact ⟨_, hturn⟩

/-- A `U1` item with the single value 5 is stored as an array. -/
theorem not_always_stored_by_rule :
    ¬ ∀ {fl : FloatText} {varPrefix : Bytes} {st st' : DecodeState} {rest body : Bytes} {h : Header}
      {t : ElementType}, rest.length < 2 ^ 32 → st.cursor = cursorAt rest →
      takeHeader rest = some (h, body) → secsType? h.code = some (.elements t) →
      decodeTurn fl varPrefix st = .ok (.next st') →
      StoredByRule fl t (nextName varPrefix st.frames) h.size body st.vars st'.vars := by
  intro hall
  have hh : takeHeader [0xA5, 1, 5] = some (⟨0xA4, 1⟩, [5]) := rfl
  have hlen : ([0xA5, 1, 5] : Bytes).length < 2 ^ 32 := by decide
  obtain ⟨st', hturn⟩ := decodeTurn_inFront ⟨fun _ => [], fun _ => []⟩ hlen hh rfl rfl le_rfl
  obtain ⟨added, hadded, hperm⟩ := hall hlen rfl hh rfl hturn
  rw [decodeTurn_vars hlen rfl hh rfl hturn, List.append_cancel_left_eq] at hadded
  rw [← hadded] at hperm
  rcases keepsRule_of_vars hperm with hmany | ⟨-, hne⟩ | ⟨hzero, -⟩
  · exact absurd hmany (by decide)
  · exact hne rfl
  · cases hzero

/-- A `U2` item with the single value 5. -/
theorem stored_by_rule_single :
    ∃ st', decodeTurn ⟨fun _ => [], fun _ => []⟩ (cstr "S1F1") (inFront [0xA9, 2, 0, 5]) =
        .ok (.next st') ∧
      StoredByRule ⟨fun _ => [], fun _ => []⟩ .unsigned2 (nextName (cstr "S1F1") [⟨0, 0⟩]) 2 [0, 5]
        [] st'.vars := by
  have hh : takeHeader [0xA9, 2, 0, 5] = some (⟨0xA8, 2⟩, [0, 5]) := rfl
  have hlen : ([0xA9, 2, 0, 5] : Bytes).length < 2 ^ 32 := by decide
  obtain ⟨st', hturn⟩ := decodeTurn_inFront ⟨fun _ => [], fun _ => []⟩ hlen hh rfl rfl le_rfl
  exact ⟨st', hturn, (stored_by_rule_iff hlen rfl hh rfl hturn).2 (.inr (.inl ⟨rfl, by decide⟩))⟩

end ScOpen
