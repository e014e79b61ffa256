import ScOpen.TmpCapacity
import ScOpen.Runs

/-!
# The values of the temporary variables

A put copies its value up to the first NUL. Where it updates a variable it leaves the length as it
was, so the value read back is cut off, or has what lies behind it.
-/

namespace ScOpen

/-! ## Values with NUL bytes -/

theorem exists_other_byte (c : UInt8) : ∃ b, b ≠ c := by
  by_cases hc : c = 0
  · exact ⟨1, by rw [hc]; decide⟩
  · exact ⟨0, fun heq => hc heq.symm⟩

/-- A value survives the copy up to its first NUL when no byte of it follows one. -/
theorem copied_iff (v : Bytes) :
    (∀ behind, bytesAt behind (cString v ++ [0]) v.length = v) ↔ 0 ∉ v.dropLast := by
  constructor
  · intro h hzero
    obtain ⟨r, hr⟩ := cString_append_zero (List.dropLast_subset v hzero)
    cases r with
    | nil =>
        rw [hr, List.dropLast_concat] at hzero
        exact zero_notMem_cString v hzero
    | cons c r =>
        -- the byte after the NUL is whatever lies behind the copy
        obtain ⟨b, hb⟩ := exists_other_byte c
        have hlen : v.length = (cString v).length + (r.length + 2) := by
          have hlengths := congrArg List.length hr
          rwa [List.length_append] at hlengths
        have hbyte : v[(cString v).length + 1]? = some c := by
          have hget := congrArg (·[(cString v).length + 1]?) hr
          refine hget.trans ?_
          rw [List.getElem?_append_right (by omega), Nat.add_sub_cancel_left]
          rfl
        have hread := congrArg (·[(cString v).length + 1]?) (h fun _ => b)
        change (bytesAt _ _ _)[(cString v).length + 1]? = v[(cString v).length + 1]? at hread
        rw [bytesAt_getElem? _ _ (by omega), hbyte,
          List.getElem?_eq_none (by rw [List.length_append, List.length_singleton])] at hread
        exact hb (Option.some.inj hread)
  · intro h behind
    by_cases hzero : 0 ∈ v
    · obtain ⟨r, hr⟩ := cString_append_zero hzero
      have hnil : r = [] := by
        by_contra hne
        apply h
        rw [hr, List.dropLast_append_of_ne_nil (List.cons_ne_nil _ _),
          List.dropLast_cons_of_ne_nil hne]
        exact List.mem_append_right _ List.mem_cons_self
      subst hnil
      rw [← hr]
      exact bytesAt_self
    · have hself := cString_eq_self hzero
      rw [hself, bytesAt_of_le (by rw [List.length_append]; omega), List.take_left]

/-! ## The array -/

structure TmpTable.Ordered (lib : TmpLibrary) (t : TmpTable) : Prop where
  sorted : SortedArray.Sorted TmpEntry.key t.entries
  hashed : ∀ v ∈ t.entries, v.hash = lib.hash v.name

/-- A put, adds followed by a sort, or a deletion of all variables. -/
inductive TmpBuild where
  | put (behind : ℕ → UInt8) (name value : Bytes) (length : ℕ)
  | adds (vars : List (Bytes × Bytes × ℤ))
  | deleteAll

def TmpBuild.run (lib : TmpLibrary) (t : TmpTable) : TmpBuild → TmpTable
  | .put behind name value length => tmpVariablePut lib behind t name value length
  | .adds vars =>
      tmpVariableSort lib (vars.foldl (fun t v => tmpVariableAdd lib t v.1 v.2.1 v.2.2) t)
  | .deleteAll => tmpVariableDeleteAll t

abbrev TmpTable.Built (lib : TmpLibrary) : TmpTable → Prop :=
  Runs.Reaches (fun t b => some (TmpBuild.run lib t b)) (fun _ _ => True) (· = noTmpVariables)

section

variable {lib : TmpLibrary} {t : TmpTable}

theorem ordered_put (h : t.Ordered lib) (behind : ℕ → UInt8) (name value : Bytes)
    (length : ℕ) : (tmpVariablePut lib behind t name value length).Ordered lib := by
  by_cases hnil : t.entries = []
  · rw [put_first lib hnil]
    refine ⟨List.pairwise_singleton _ _, fun v hv => ?_⟩
    rw [List.mem_singleton.1 hv]
    rfl
  cases hs : lib.bsearch t.entries name with
  | some i =>
      obtain ⟨v, hv, hhash, hname⟩ := tmp_bsearch_some hs
      rw [put_old lib hnil hs hv]
      refine ⟨SortedArray.sorted_set h.sorted hv rfl, fun u hu => ?_⟩
      rcases List.mem_or_eq_of_mem_set hu with hu | rfl
      · exact h.hashed u hu
      · exact hhash.trans (congrArg lib.hash hname.symm)
  | none =>
      rw [put_new lib hnil hs]
      refine ⟨SortedArray.sorted_place tmpNameCmp_eq_compare h.sorted, fun u hu => ?_⟩
      rcases List.mem_cons.1 ((SortedArray.perm_insertAt _ _ _).mem_iff.1 hu) with rfl | hu
      · rfl
      · exact h.hashed u hu

theorem hashed_adds (h : ∀ v ∈ t.entries, v.hash = lib.hash v.name)
    (vars : List (Bytes × Bytes × ℤ)) :
    ∀ v ∈ (vars.foldl (fun t v => tmpVariableAdd lib t v.1 v.2.1 v.2.2) t).entries,
      v.hash = lib.hash v.name := by
  induction vars generalizing t with
  | nil => exact h
  | cons x vars ih =>
      refine ih fun v hv => ?_
      rcases List.mem_append.1 hv with hv | hv
      · exact h v hv
      · rw [List.mem_singleton.1 hv]
        rfl

theorem TmpTable.Built.ordered (h : t.Built lib) : t.Ordered lib := by
  refine h.invariant ?_ ?_
  · rintro t rfl
    exact ⟨List.Pairwise.nil, fun v hv => absurd hv List.not_mem_nil⟩
  · intro t b t' hord _ hstep
    cases hstep
    cases b with
    | put behind name value length => exact ordered_put hord behind name value length
    | adds vars =>
        refine ⟨SortedArray.sorted_arrange tmpNameCmp_eq_compare lib.sort _, fun v hv => ?_⟩
        exact hashed_adds hord.hashed vars v ((lib.sort.perm _ _).mem_iff.1 hv)
    | deleteAll => exact ⟨List.Pairwise.nil, fun v hv => absurd hv List.not_mem_nil⟩

theorem tmp_bsearch_of_mem (h : t.Ordered lib) {v : TmpEntry} (hv : v ∈ t.entries) :
    ∃ i, lib.bsearch t.entries v.name = some i := by
  refine SortedArray.find_exists tmpNameCmp_eq_compare h.sorted hv ?_
  exact orderKey_inj.2 ⟨(h.hashed v hv).symm, rfl⟩

theorem get_of_bsearch {name : Bytes} {i : ℕ} {v : TmpEntry}
    (hi : lib.bsearch t.entries name = some i) (hv : t.entries[i]? = some v)
    (behind : ℕ → UInt8) :
    tmpVariableGet lib behind t name = some (bytesAt behind v.value v.length) := by
  rw [tmpVariableGet, hi, Option.bind_some, hv]
  rfl

/-- Where no other variable has the name, a get reads its entry. -/
theorem get_of_unique (h : t.Ordered lib) {v : TmpEntry} (hv : v ∈ t.entries)
    (hunique : ∀ u ∈ t.entries, u.name = v.name → u = v) (behind : ℕ → UInt8) :
    tmpVariableGet lib behind t v.name = some (bytesAt behind v.value v.length) := by
  obtain ⟨i, hi⟩ := tmp_bsearch_of_mem h hv
  obtain ⟨u, hu, -, hname⟩ := tmp_bsearch_some hi
  rw [hunique u (List.mem_of_getElem? hu) hname] at hu
  exact get_of_bsearch hi hu behind

theorem name_notMem (h : t.Ordered lib) {name : Bytes} (hs : lib.bsearch t.entries name = none)
    {v : TmpEntry} (hv : v ∈ t.entries) : v.name ≠ name := by
  rintro rfl
  obtain ⟨i, hi⟩ := tmp_bsearch_of_mem h hv
  rw [hs] at hi
  cases hi

/-! ## What a get reads after a put -/

/-- A new variable has the bytes that were copied. -/
theorem get_put_new (h : t.Ordered lib) {name : Bytes} (hs : lib.bsearch t.entries name = none)
    (behind behind' : ℕ → UInt8) (value : Bytes) (length : ℕ) :
    tmpVariableGet lib behind' (tmpVariablePut lib behind t name value length) name =
      some (bytesAt behind (cString value ++ [0]) length) := by
  have hmem : ∀ u, u ∈ (tmpVariablePut lib behind t name value length).entries ↔
      u = lib.putEntry behind name value length ∨ u ∈ t.entries := by
    intro u
    by_cases hnil : t.entries = []
    · rw [put_first lib hnil, hnil]
      exact List.mem_cons
    · rw [put_new lib hnil hs]
      exact (SortedArray.perm_insertAt _ _ _).mem_iff.trans List.mem_cons
  have hord := ordered_put h behind name value length
  refine (get_of_unique hord ((hmem _).2 (.inl rfl)) (fun u hu hname => ?_) behind').trans ?_
  · rcases (hmem u).1 hu with heq | hold
    · exact heq
    · exact absurd hname (name_notMem h hs hold)
  · exact congrArg some (bytesAt_bytesAt _ _ _ _)

/-- A variable that was there is read with the length it had. -/
theorem get_put_old {name : Bytes} {i : ℕ} {v : TmpEntry}
    (hi : lib.bsearch t.entries name = some i) (hv : t.entries[i]? = some v)
    (behind behind' : ℕ → UInt8) (value : Bytes) (length : ℕ) :
    tmpVariableGet lib behind' (tmpVariablePut lib behind t name value length) name =
      some (bytesAt behind' (cString value ++ [0]) v.length) := by
  have hlt := (List.getElem?_eq_some_iff.1 hv).1
  have hnil : t.entries ≠ [] := List.ne_nil_of_length_pos (Nat.zero_lt_of_lt hlt)
  have hkeys := SortedArray.map_set (f := TmpEntry.key)
    (y := { v with value := cString value ++ [0] }) hv rfl
  have hi' : lib.bsearch (t.entries.set i { v with value := cString value ++ [0] }) name =
      some i := (SortedArray.find_congr tmpNameCmp_eq_compare hkeys).trans hi
  rw [put_old lib hnil hi hv]
  exact get_of_bsearch (t := { t with entries := _ }) hi' (List.getElem?_set_self hlt) behind'

/-- No other variable changes. -/
theorem others_put (behind : ℕ → UInt8) (name value : Bytes) (length : ℕ) :
    (tmpVariablePut lib behind t name value length).entries.filter (·.name ≠ name) =
      t.entries.filter (·.name ≠ name) := by
  have hneg : ∀ v : TmpEntry, v.name = name → decide (v.name ≠ name) = false := by
    intro v hname
    exact decide_eq_false (not_not_intro hname)
  by_cases hnil : t.entries = []
  · rw [put_first lib hnil, hnil, List.filter_cons_of_neg]
    rw [hneg _ rfl]
    exact Bool.false_ne_true
  cases hs : lib.bsearch t.entries name with
  | some i =>
      obtain ⟨v, hv, -, hname⟩ := tmp_bsearch_some hs
      rw [put_old lib hnil hs hv]
      exact SortedArray.filter_set hv (hneg v hname) (hneg _ hname)
  | none =>
      rw [put_new lib hnil hs]
      exact SortedArray.filter_insertAt (p := fun v : TmpEntry => decide (v.name ≠ name))
        (hneg (lib.putEntry behind name value length) rfl) _ _

end

/-- After the put the value is read back, whatever lies behind it in memory, and the other
variables are as they were. -/
def PutRight (lib : TmpLibrary) (t : TmpTable) (name value : Bytes) : Prop :=
  ∀ behind behind', tmpVariableGet lib behind'
      (tmpVariablePut lib behind t name value value.length) name = some value ∧
    (tmpVariablePut lib behind t name value value.length).entries.filter (·.name ≠ name) =
      t.entries.filter (·.name ≠ name)

/-- No byte of the value follows a NUL, and the variable, if it is there, has the value's length. -/
def PutFits (lib : TmpLibrary) (t : TmpTable) (name value : Bytes) : Prop :=
  0 ∉ value.dropLast ∧
    ∀ i v, lib.bsearch t.entries name = some i → t.entries[i]? = some v →
      v.length = value.length

/-- A put is right exactly when no byte of the value follows a NUL and a variable that was there
keeps its length. -/
theorem put_right_iff (lib : TmpLibrary) (t : TmpTable) (ht : t.Built lib) (name value : Bytes) :
    PutRight lib t name value ↔ PutFits lib t name value := by
  cases hs : lib.bsearch t.entries name with
  | none =>
      have hget := get_put_new ht.ordered hs
      refine Iff.trans ⟨fun h behind => ?_, fun h behind behind' => ⟨?_, others_put _ _ _ _⟩⟩
        ((copied_iff value).trans ⟨fun h => ⟨h, fun i v hi => ?_⟩, fun h => h.1⟩)
      · exact Option.some.inj ((hget behind behind value _).symm.trans (h behind behind).1)
      · rw [hget, h]
      · rw [hs] at hi
        cases hi
  | some i =>
      obtain ⟨v, hv, -⟩ := tmp_bsearch_some hs
      have hget := get_put_old hs hv
      constructor
      · intro h
        have hread : ∀ behind, bytesAt behind (cString value ++ [0]) v.length = value := by
          intro behind
          exact Option.some.inj ((hget behind behind value _).symm.trans (h behind behind).1)
        have hlen : v.length = value.length := by
          rw [← bytesAt_length (fun _ => 0) (cString value ++ [0]) v.length, hread]
        refine ⟨(copied_iff value).1 (hlen ▸ hread), fun j u hj hu => ?_⟩
        rw [hs] at hj
        cases hj
        rw [hv] at hu
        cases hu
        exact hlen
      · rintro ⟨hzero, hlen⟩ behind behind'
        refine ⟨?_, others_put _ _ _ _⟩
        rw [hget, hlen i v hs hv, (copied_iff value).2 hzero]

def threePuts : List TmpBuild :=
  [.put (fun _ => 0) (cstr "a") (cstr "1") 1, .put (fun _ => 0) (cstr "c") (cstr "333") 3,
    .put (fun _ => 0) (cstr "b") (cstr "22") 2]

/-- The second of three variables is put again with a value of the same length. -/
theorem put_right_iff_again :
    ∃ t, threePuts.foldlM (fun t b => some (TmpBuild.run plainTmpLibrary t b)) noTmpVariables =
        some t ∧ t.entries.map TmpEntry.name = [cstr "a", cstr "b", cstr "c"] ∧
      PutRight plainTmpLibrary t (cstr "b") (cstr "44") := by
  have hrun : ∃ t, threePuts.foldlM (fun t b => some (TmpBuild.run plainTmpLibrary t b))
      noTmpVariables = some t ∧ t.entries.map TmpEntry.name = [cstr "a", cstr "b", cstr "c"] ∧
      PutFits plainTmpLibrary t (cstr "b") (cstr "44") := by
    refine ⟨_, rfl, rfl, by decide, fun i v hi hv => ?_⟩
    cases hi
    cases hv
    rfl
  obtain ⟨t, ht, hnames, hfits⟩ := hrun
  have hbuilt : t.Built plainTmpLibrary := Runs.Reaches.run (.start rfl) ht
  exact ⟨t, ht, hnames, (put_right_iff plainTmpLibrary t hbuilt _ _).2 hfits⟩

/-- A value that is put over a shorter one. -/
theorem put_not_always_right :
    ¬ ∀ t, t.Built plainTmpLibrary → ∀ name value, PutRight plainTmpLibrary t name value := by
  intro h
  have hstart : noTmpVariables.Built plainTmpLibrary := Runs.Reaches.start rfl
  have hput := hstart.next (a := .put (fun _ => 0) (cstr "a") (cstr "1") 1) trivial rfl
  obtain ⟨hget, -⟩ := h _ hput (cstr "a") (cstr "12") (fun _ => 0) (fun _ => 0)
  revert hget
  decide

end ScOpen
