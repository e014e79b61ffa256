import ScOpen.TmpVariables

/-!
# The room for the temporary variables

A put leaves room for just the variables that are there, and does not tell `variable_count_max`; an
add trusts it. So an add after a put writes behind the array, unless it happens to allocate it
anew.
-/

namespace ScOpen

inductive TmpOp where
  | put (behind : ℕ → UInt8) (name value : Bytes) (length : ℕ)
  | add (name value : Bytes) (length : ℤ)
  | deleteAll

def TmpOp.run (lib : TmpLibrary) (t : TmpTable) : TmpOp → TmpTable
  | .put behind name value length => tmpVariablePut lib behind t name value length
  | .add name value length => tmpVariableAdd lib t name value length
  | .deleteAll => tmpVariableDeleteAll t

def TmpOp.writes (lib : TmpLibrary) (t : TmpTable) : TmpOp → List ℕ
  | .put behind name value length =>
      if t.entries = [] then [0]
      else
        match lib.bsearch t.entries name with
        | some i => [i]
        | none => (List.range (t.entries.length + 1)).drop
            (SortedArray.place tmpNameCmp (lib.putEntry behind name value length) t.entries)
  | .add _ _ _ => [t.entries.length]
  | .deleteAll => List.range t.entries.length

def TmpOp.room (lib : TmpLibrary) (t : TmpTable) : TmpOp → ℕ
  | .deleteAll => t.capacity
  | op => (op.run lib t).capacity

/-- Every index that is written is below the capacity, and the entries fit afterwards. -/
def TmpOp.InBounds (lib : TmpLibrary) (t : TmpTable) (op : TmpOp) : Prop :=
  (∀ i ∈ op.writes lib t, i < op.room lib t) ∧
    (op.run lib t).entries.length ≤ (op.run lib t).capacity

def StayInBounds (lib : TmpLibrary) : TmpTable → List TmpOp → Prop
  | _, [] => True
  | t, op :: ops => op.InBounds lib t ∧ StayInBounds lib (op.run lib t) ops

/-! ## When they do -/

/-- Whether a put has inserted a variable since an add last allocated the array. -/
def TmpOp.tight (lib : TmpLibrary) (t : TmpTable) (tight : Bool) : TmpOp → Bool
  | .put _ name _ _ => tight || t.entries = [] || (lib.bsearch t.entries name).isNone
  | .add _ _ _ => tight && !(t.entries = [] || t.countMax ≤ t.entries.length)
  | .deleteAll => false

/-- An add either allocates the array or finds it as an add has left it. -/
def TmpOp.Fits (t : TmpTable) (tight : Bool) : TmpOp → Prop
  | .add _ _ _ => tight = false ∨ t.entries = [] ∨ t.countMax ≤ t.entries.length
  | _ => True

def AddsFit (lib : TmpLibrary) : TmpTable → Bool → List TmpOp → Prop
  | _, _, [] => True
  | t, tight, op :: ops => op.Fits t tight ∧ AddsFit lib (op.run lib t) (op.tight lib t tight) ops

structure Roomy (t : TmpTable) (tight : Bool) : Prop where
  fit : t.entries.length ≤ t.capacity
  full : tight = true → t.capacity = t.entries.length
  loose : tight = false → t.entries ≠ [] → t.countMax ≤ t.capacity

section

variable (lib : TmpLibrary) {t : TmpTable} {tight : Bool}

theorem put_first (h : t.entries = []) (behind : ℕ → UInt8) (name value : Bytes) (length : ℕ) :
    tmpVariablePut lib behind t name value length =
      { t with entries := [lib.putEntry behind name value length], capacity := 1 } := if_pos h

theorem put_old (h : t.entries ≠ []) {name : Bytes} {i : ℕ} {v : TmpEntry}
    (hi : lib.bsearch t.entries name = some i) (hv : t.entries[i]? = some v)
    (behind : ℕ → UInt8) (value : Bytes) (length : ℕ) :
    tmpVariablePut lib behind t name value length =
      { t with entries := t.entries.set i { v with value := cString value ++ [0] } } := by
  rw [tmpVariablePut, if_neg h, hi]
  simp only [hv]

theorem put_new (h : t.entries ≠ []) {name : Bytes} (hi : lib.bsearch t.entries name = none)
    (behind : ℕ → UInt8) (value : Bytes) (length : ℕ) :
    tmpVariablePut lib behind t name value length =
      { t with
        entries := SortedArray.insertAt (SortedArray.place tmpNameCmp
          (lib.putEntry behind name value length) t.entries)
          (lib.putEntry behind name value length) t.entries
        capacity := t.entries.length + 1 } := by
  rw [tmpVariablePut, if_neg h, hi]

theorem inBounds_put {behind : ℕ → UInt8} {name value : Bytes} {length : ℕ} {t' : TmpTable}
    {is : List ℕ} (hput : tmpVariablePut lib behind t name value length = t')
    (hwrites : TmpOp.writes lib t (.put behind name value length) = is)
    (hlt : ∀ i ∈ is, i < t'.capacity) (hle : t'.entries.length ≤ t'.capacity) :
    TmpOp.InBounds lib t (.put behind name value length) := by
  subst hput hwrites
  exact ⟨hlt, hle⟩

theorem tight_put (behind : ℕ → UInt8) (name value : Bytes) (length : ℕ) :
    TmpOp.tight lib t tight (.put behind name value length) =
      (tight || t.entries = [] || (lib.bsearch t.entries name).isNone) := rfl

theorem tight_add (name value : Bytes) (length : ℤ) :
    TmpOp.tight lib t tight (.add name value length) =
      (tight && !(t.entries = [] || t.countMax ≤ t.entries.length)) := rfl

theorem put_step (h : Roomy t tight) (behind : ℕ → UInt8) (name value : Bytes) (length : ℕ) :
    TmpOp.InBounds lib t (.put behind name value length) ∧
      Roomy (tmpVariablePut lib behind t name value length)
        (TmpOp.tight lib t tight (.put behind name value length)) := by
  by_cases hnil : t.entries = []
  · have htight : TmpOp.tight lib t tight (.put behind name value length) = true := by
      rw [tight_put, decide_eq_true hnil, Bool.or_true, Bool.true_or]
    rw [htight, put_first lib hnil]
    refine ⟨inBounds_put lib (put_first lib hnil behind name value length) (if_pos hnil) ?_ le_rfl,
      le_rfl, fun _ => rfl, fun hfalse => absurd hfalse.symm Bool.false_ne_true⟩
    intro i hi
    rw [List.mem_singleton.1 hi]
    exact Nat.one_pos
  cases hs : lib.bsearch t.entries name with
  | some i =>
      obtain ⟨v, hv, -⟩ := tmp_bsearch_some hs
      have hlength : (t.entries.set i { v with value := cString value ++ [0] }).length =
          t.entries.length := List.length_set
      have hwrites : TmpOp.writes lib t (.put behind name value length) = [i] := by
        rw [TmpOp.writes, if_neg hnil, hs]
      have htight : TmpOp.tight lib t tight (.put behind name value length) = tight := by
        rw [tight_put, hs, decide_eq_false hnil, Bool.or_false]
        exact Bool.or_false _
      rw [htight]
      refine ⟨inBounds_put lib (put_old lib hnil hs hv behind value length) hwrites ?_
        (hlength.trans_le h.fit), ?_⟩
      · intro j hj
        rw [List.mem_singleton.1 hj]
        exact (List.getElem?_eq_some_iff.1 hv).1.trans_le h.fit
      · rw [put_old lib hnil hs hv]
        exact ⟨hlength.trans_le h.fit, fun htrue => (h.full htrue).trans hlength.symm,
          fun hloose _ => h.loose hloose hnil⟩
  | none =>
      have hlength : (SortedArray.insertAt (SortedArray.place tmpNameCmp
          (lib.putEntry behind name value length) t.entries)
          (lib.putEntry behind name value length) t.entries).length = t.entries.length + 1 :=
        (SortedArray.perm_insertAt _ _ _).length_eq
      have hwrites : TmpOp.writes lib t (.put behind name value length) =
          (List.range (t.entries.length + 1)).drop (SortedArray.place tmpNameCmp
            (lib.putEntry behind name value length) t.entries) := by
        rw [TmpOp.writes, if_neg hnil, hs]
      have htight : TmpOp.tight lib t tight (.put behind name value length) = true := by
        rw [tight_put, hs]
        exact Bool.or_true _
      rw [htight]
      refine ⟨inBounds_put lib (put_new lib hnil hs behind value length) hwrites ?_ hlength.le, ?_⟩
      · exact fun i hi => List.mem_range.1 (List.mem_of_mem_drop hi)
      · rw [put_new lib hnil hs]
        exact ⟨hlength.le, fun _ => hlength.symm,
          fun hfalse => absurd hfalse.symm Bool.false_ne_true⟩

/-- The array after an add has room for the entry, if there was room in the array it grew to. -/
theorem inBounds_add (hroom : t.entries.length + 1 ≤ (growTmp t).capacity)
    (name value : Bytes) (length : ℤ) : TmpOp.InBounds lib t (.add name value length) := by
  have hlength : (t.entries ++ [lib.addEntry name value length]).length = t.entries.length + 1 :=
    List.length_append
  refine ⟨?_, hlength.trans_le hroom⟩
  intro i hi
  rw [List.mem_singleton.1 hi]
  exact hroom

theorem roomy_add (hroom : t.entries.length + 1 ≤ (growTmp t).capacity)
    (hmax : (growTmp t).countMax ≤ (growTmp t).capacity) (name value : Bytes) (length : ℤ) :
    Roomy (tmpVariableAdd lib t name value length) false := by
  have hlength : (t.entries ++ [lib.addEntry name value length]).length = t.entries.length + 1 :=
    List.length_append
  exact ⟨hlength.trans_le hroom, fun hfalse => absurd hfalse Bool.false_ne_true,
    fun _ _ => hmax⟩

theorem grow_some (hgrow : t.entries = [] ∨ t.countMax ≤ t.entries.length) :
    t.entries.length + 1 ≤ (growTmp t).capacity ∧
      (growTmp t).countMax ≤ (growTmp t).capacity := by
  unfold growTmp
  by_cases hnil : t.entries = []
  · rw [if_pos hnil, hnil]
    exact ⟨by decide, le_rfl⟩
  · have hmax := hgrow.resolve_left hnil
    rw [if_neg hnil, if_pos hmax]
    simp only [NUM_TMP_VARS]
    omega

theorem add_allocates (tight : Bool) (hgrow : t.entries = [] ∨ t.countMax ≤ t.entries.length)
    (name value : Bytes) (length : ℤ) :
    TmpOp.InBounds lib t (.add name value length) ∧
      Roomy (tmpVariableAdd lib t name value length)
        (TmpOp.tight lib t tight (.add name value length)) := by
  obtain ⟨hroom, hmax⟩ := grow_some hgrow
  have htight : TmpOp.tight lib t tight (.add name value length) = false := by
    have hor : (decide (t.entries = []) || decide (t.countMax ≤ t.entries.length)) = true := by
      rw [Bool.or_eq_true, decide_eq_true_eq, decide_eq_true_eq]
      exact hgrow
    rw [tight_add, hor]
    exact Bool.and_false _
  rw [htight]
  exact ⟨inBounds_add lib hroom name value length, roomy_add lib hroom hmax name value length⟩

theorem grow_none (hnil : t.entries ≠ []) (hmax : ¬ t.countMax ≤ t.entries.length) :
    growTmp t = t := by
  rw [growTmp, if_neg hnil, if_neg hmax]

theorem add_loose (h : Roomy t false) (hnil : t.entries ≠ [])
    (hmax : ¬ t.countMax ≤ t.entries.length) (name value : Bytes) (length : ℤ) :
    TmpOp.InBounds lib t (.add name value length) ∧
      Roomy (tmpVariableAdd lib t name value length) false := by
  have hle := h.loose rfl hnil
  have hroom : t.entries.length + 1 ≤ (growTmp t).capacity := by
    rw [grow_none hnil hmax]
    omega
  refine ⟨inBounds_add lib hroom name value length, roomy_add lib hroom ?_ name value length⟩
  rw [grow_none hnil hmax]
  exact hle

/-- Where the array has no room and none is allocated, an add writes behind it. -/
theorem add_tight (h : Roomy t true) (hnil : t.entries ≠ [])
    (hmax : ¬ t.countMax ≤ t.entries.length) (name value : Bytes) (length : ℤ) :
    ¬ TmpOp.InBounds lib t (.add name value length) := by
  rintro ⟨hwrites, -⟩
  have hlt := hwrites _ (List.mem_singleton_self _)
  change t.entries.length < (growTmp t).capacity at hlt
  rw [grow_none hnil hmax, h.full rfl] at hlt
  exact lt_irrefl _ hlt

theorem deleteAll_step (h : Roomy t tight) :
    TmpOp.InBounds lib t .deleteAll ∧ Roomy (tmpVariableDeleteAll t) false := by
  refine ⟨⟨fun i hi => (List.mem_range.1 hi).trans_le h.fit, le_rfl⟩, le_rfl, ?_, ?_⟩
  · exact fun hfalse => absurd hfalse Bool.false_ne_true
  · exact fun _ hne => absurd rfl hne

/-- A call stays in bounds exactly when it fits. -/
theorem inBounds_step (h : Roomy t tight) (op : TmpOp) :
    (op.InBounds lib t ↔ op.Fits t tight) ∧
      (op.Fits t tight → Roomy (op.run lib t) (op.tight lib t tight)) := by
  cases op with
  | put behind name value length =>
      obtain ⟨hin, hroomy⟩ := put_step lib h behind name value length
      exact ⟨iff_of_true hin trivial, fun _ => hroomy⟩
  | deleteAll =>
      obtain ⟨hin, hroomy⟩ := deleteAll_step lib h
      exact ⟨iff_of_true hin trivial, fun _ => hroomy⟩
  | add name value length =>
      by_cases hgrow : t.entries = [] ∨ t.countMax ≤ t.entries.length
      · obtain ⟨hin, hroomy⟩ := add_allocates lib tight hgrow name value length
        exact ⟨iff_of_true hin (.inr hgrow), fun _ => hroomy⟩
      · obtain ⟨hnil, hmax⟩ := not_or.1 hgrow
        cases tight with
        | false =>
            obtain ⟨hin, hroomy⟩ := add_loose lib h hnil hmax name value length
            exact ⟨iff_of_true hin (.inl rfl), fun _ => hroomy⟩
        | true =>
            have hfits : ¬ TmpOp.Fits t true (.add name value length) := by
              rintro (hfalse | hrest)
              · cases hfalse
              · exact hgrow hrest
            exact ⟨iff_of_false (add_tight lib h hnil hmax name value length) hfits,
              fun hfit => absurd hfit hfits⟩

theorem inBounds_iff (h : Roomy t tight) (ops : List TmpOp) :
    StayInBounds lib t ops ↔ AddsFit lib t tight ops := by
  induction ops generalizing t tight with
  | nil => exact Iff.rfl
  | cons op ops ih =>
      obtain ⟨hstep, hroomy⟩ := inBounds_step lib h op
      constructor
      · rintro ⟨hin, hrest⟩
        have hfit := hstep.1 hin
        exact ⟨hfit, (ih (hroomy hfit)).1 hrest⟩
      · rintro ⟨hfit, hrest⟩
        exact ⟨hstep.2 hfit, (ih (hroomy hfit)).2 hrest⟩

end

/-- A sequence of puts, adds and deletes stays in bounds exactly when no add relies on
`variable_count_max` after a put. -/
theorem tmp_inBounds_iff (lib : TmpLibrary) (ops : List TmpOp) :
    StayInBounds lib noTmpVariables ops ↔ AddsFit lib noTmpVariables false ops := by
  refine inBounds_iff lib ⟨le_rfl, ?_, ?_⟩ ops
  · exact fun hfalse => absurd hfalse Bool.false_ne_true
  · exact fun _ hne => absurd rfl hne

/-- A variable that is added, one that is put and another one that is added. -/
theorem not_always_inBounds :
    ¬ StayInBounds plainTmpLibrary noTmpVariables
      [.add (cstr "a") (cstr "1") 1, .put (fun _ => 0) (cstr "b") (cstr "2") 1,
        .add (cstr "c") (cstr "3") 1] := by
  rintro ⟨-, -, ⟨hwrites, -⟩, -⟩
  have hlt : 2 < 2 := hwrites 2 (List.mem_singleton_self _)
  exact absurd hlt (by decide)

end ScOpen
