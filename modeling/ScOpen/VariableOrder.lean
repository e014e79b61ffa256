import ScOpen.VariableStore
import ScOpen.Runs
import Mathlib.Data.List.Lex
import Mathlib.Data.Prod.Lex

/-!
# The order of the store

Every operation keeps the array sorted by hash and full name, with one entry at most for a full
name, so the binary search finds a full name exactly when there is an entry for it.
-/

namespace ScOpen

/-! ## `name_cmp()` compares by hash and name -/

theorem strcmp_compares (a b : Bytes) :
    (strcmp a b).Compares (a.map UInt8.toNat) (b.map UInt8.toNat) := by
  induction a generalizing b with
  | nil =>
      cases b with
      | nil => exact rfl
      | cons b bs => exact List.nil_lt_cons _ _
  | cons a as ih =>
      cases b with
      | nil => exact List.nil_lt_cons _ _
      | cons b bs =>
          rw [strcmp]
          by_cases hab : a < b
          · rw [if_pos hab]
            exact List.cons_lt_cons_iff.2 (.inl (UInt8.lt_iff_toNat_lt.1 hab))
          · rw [if_neg hab]
            by_cases hba : b < a
            · rw [if_pos hba]
              exact List.cons_lt_cons_iff.2 (.inl (UInt8.lt_iff_toNat_lt.1 hba))
            · rw [if_neg hba]
              have heq : a = b := by
                apply UInt8.toNat.inj
                rw [UInt8.lt_iff_toNat_lt] at hab hba
                omega
              subst heq
              have htail := ih bs
              cases hc : strcmp as bs with
              | lt =>
                  rw [hc] at htail
                  exact List.cons_lt_cons_iff.2 (.inr ⟨rfl, htail⟩)
              | eq =>
                  rw [hc] at htail
                  exact congrArg (a.toNat :: ·) htail
              | gt =>
                  rw [hc] at htail
                  exact List.cons_lt_cons_iff.2 (.inr ⟨rfl, htail⟩)

def OrderKey : Type := ℕ ×ₗ List ℕ

instance : LinearOrder OrderKey := inferInstanceAs (LinearOrder (ℕ ×ₗ List ℕ))

def orderKey (hash : ℕ) (name : Bytes) : OrderKey := toLex (hash, name.map UInt8.toNat)

theorem hash_compares (h k : ℕ) (a b : Bytes) :
    (if h < k then Ordering.lt else if k < h then .gt else strcmp a b).Compares
      (orderKey h a) (orderKey k b) := by
  by_cases hhk : h < k
  · rw [if_pos hhk]
    exact Prod.Lex.toLex_lt_toLex.2 (.inl hhk)
  · rw [if_neg hhk]
    by_cases hkh : k < h
    · rw [if_pos hkh]
      exact Prod.Lex.toLex_lt_toLex.2 (.inl hkh)
    · rw [if_neg hkh]
      have heq : h = k := by omega
      have hnames := strcmp_compares a b
      cases hc : strcmp a b with
      | lt =>
          rw [hc] at hnames
          exact Prod.Lex.toLex_lt_toLex.2 (.inr ⟨heq, hnames⟩)
      | eq =>
          rw [hc] at hnames
          exact congrArg toLex (Prod.ext heq hnames)
      | gt =>
          rw [hc] at hnames
          exact Prod.Lex.toLex_lt_toLex.2 (.inr ⟨heq.symm, hnames⟩)

theorem orderKey_inj {h k : ℕ} {a b : Bytes} :
    orderKey h a = orderKey k b ↔ h = k ∧ a = b := by
  constructor
  · intro heq
    have hpair : (h, a.map UInt8.toNat) = (k, b.map UInt8.toNat) := heq
    obtain ⟨hhash, hname⟩ := Prod.mk.inj hpair
    exact ⟨hhash, List.map_injective_iff.2 (fun _ _ => UInt8.toNat.inj) hname⟩
  · rintro ⟨rfl, rfl⟩
    rfl

def Variable.key (v : Variable) : OrderKey := orderKey v.hash v.name

theorem nameCmp_eq_compare (i j : Variable) : nameCmp i j = compare i.key j.key :=
  ((compare_iff _ _).2 (hash_compares i.hash j.hash i.name j.name)).symm

theorem key_inj {i j : Variable} : i.key = j.key ↔ i.hash = j.hash ∧ i.name = j.name :=
  orderKey_inj

theorem nameCmp_eq {i j : Variable} : nameCmp i j = .eq ↔ i.hash = j.hash ∧ i.name = j.name := by
  rw [nameCmp_eq_compare, compare_eq_iff_eq, key_inj]

/-! ## What the search finds -/

def VarTypes.Internal (t : VarTypes) : Prop := t = .sc ∨ t = .label

instance : DecidablePred VarTypes.Internal := fun t =>
  inferInstanceAs (Decidable (t = .sc ∨ t = .label))

def VarTypes.sign (t : VarTypes) : UInt8 := if t.Internal then chr '#' else chr '('

structure Ordered (lib : StoreLibrary) (st : Store) : Prop where
  sorted : SortedArray.Sorted Variable.key st
  distinct : (st.map Variable.name).Pairwise fun a b => a = b → a = []
  hashed : ∀ v ∈ st, v.name ≠ [] → v.hash = lib.hash v.name
  signed : ∀ v ∈ st, v.name ≠ [] → v.name.head? = some v.type.sign

def entry (st : Store) (name : Bytes) : Option Variable :=
  st.find? fun v => v.name = name ∧ v.name ≠ []

section

variable {lib : StoreLibrary} {st : Store} {n : Bytes} {i : ℕ} {v : Variable}

theorem ordered_nil : Ordered lib [] :=
  ⟨List.Pairwise.nil, List.Pairwise.nil, fun _ h => absurd h List.not_mem_nil,
    fun _ h => absurd h List.not_mem_nil⟩

theorem entry_mem (h : entry st n = some v) : v ∈ st ∧ v.name = n ∧ n ≠ [] := by
  have hname := List.find?_some h
  rw [decide_eq_true_eq] at hname
  exact ⟨List.mem_of_find?_eq_some h, hname.1, hname.1 ▸ hname.2⟩

theorem Ordered.name_inj (hst : Ordered lib st) {j : ℕ} {u : Variable} (hi : st[i]? = some v)
    (hj : st[j]? = some u) (hname : v.name = u.name) (hne : v.name ≠ []) : i = j := by
  have hmap : ∀ {k : ℕ} {w : Variable}, st[k]? = some w →
      ∃ hk : k < (st.map Variable.name).length, (st.map Variable.name)[k] = w.name := by
    intro k w hk
    obtain ⟨hlt, rfl⟩ := List.getElem?_eq_some_iff.1 hk
    exact ⟨by rwa [List.length_map], List.getElem_map _⟩
  obtain ⟨hi', hiname⟩ := hmap hi
  obtain ⟨hj', hjname⟩ := hmap hj
  rcases lt_trichotomy i j with hlt | heq | hgt
  · have hdist := List.pairwise_iff_getElem.1 hst.distinct i j hi' hj' hlt
    rw [hiname, hjname] at hdist
    exact absurd (hdist hname) hne
  · exact heq
  · have hdist := List.pairwise_iff_getElem.1 hst.distinct j i hj' hi' hgt
    rw [hiname, hjname] at hdist
    exact absurd (hname.trans (hdist hname.symm)) hne

theorem Ordered.entry_iff (hst : Ordered lib st) :
    entry st n = some v ↔ v ∈ st ∧ v.name = n ∧ n ≠ [] := by
  constructor
  · exact entry_mem
  · rintro ⟨hmem, rfl, hne⟩
    have hsome : (entry st v.name).isSome := by
      rw [entry, List.find?_isSome]
      exact ⟨v, hmem, decide_eq_true ⟨rfl, hne⟩⟩
    obtain ⟨u, hu⟩ := Option.isSome_iff_exists.1 hsome
    obtain ⟨humem, huname, -⟩ := entry_mem hu
    obtain ⟨i, hi⟩ := List.mem_iff_getElem?.1 hmem
    obtain ⟨j, hj⟩ := List.mem_iff_getElem?.1 humem
    have hij := hst.name_inj hi hj huname.symm hne
    rw [hij, hj] at hi
    rw [hu, hi]

theorem entry_eq_none : entry st n = none ↔ n = [] ∨ ∀ v ∈ st, v.name ≠ n := by
  rw [entry, List.find?_eq_none]
  constructor
  · intro h
    by_cases hn : n = []
    · exact .inl hn
    · refine .inr fun v hv heq => ?_
      exact h v hv (decide_eq_true ⟨heq, heq ▸ hn⟩)
  · rintro (rfl | h) v hv hmatch
    · rw [decide_eq_true_eq] at hmatch
      exact hmatch.2 hmatch.1
    · rw [decide_eq_true_eq] at hmatch
      exact h v hv hmatch.1

theorem bsearch_some (h : lib.bsearch st n = some i) : ∃ v, st[i]? = some v ∧ v.name = n := by
  obtain ⟨v, hv, heq⟩ := SortedArray.find_some h
  exact ⟨v, hv, (nameCmp_eq.1 heq).2.symm⟩

theorem Ordered.bsearch_of_mem (hst : Ordered lib st) (hv : v ∈ st) (hne : v.name ≠ []) :
    ∃ i, lib.bsearch st v.name = some i ∧ st[i]? = some v := by
  have hkey : (lib.named v.name [] .user).key = v.key := by
    rw [key_inj]
    exact ⟨(hst.hashed v hv hne).symm, rfl⟩
  obtain ⟨i, hi⟩ := SortedArray.find_exists nameCmp_eq_compare (s := lib.search) hst.sorted hv hkey
  obtain ⟨u, hu, huname⟩ := bsearch_some hi
  obtain ⟨j, hj⟩ := List.mem_iff_getElem?.1 hv
  have hij := hst.name_inj hu hj huname (huname ▸ hne)
  exact ⟨i, hi, hij ▸ hj⟩

/-- The search finds a full name exactly when there is an entry for it. -/
theorem Ordered.bsearch_entry (hst : Ordered lib st) (hn : n ≠ []) :
    (lib.bsearch st n).bind (st[·]?) = entry st n := by
  cases h : lib.bsearch st n with
  | some i =>
      obtain ⟨v, hv, hname⟩ := bsearch_some h
      have hentry : entry st n = some v :=
        hst.entry_iff.2 ⟨List.mem_of_getElem? hv, hname, hn⟩
      rw [hentry, Option.bind_some, hv]
  | none =>
      refine (entry_eq_none.2 (.inr fun v hv heq => ?_)).symm
      obtain ⟨i, hi, -⟩ := hst.bsearch_of_mem hv (heq ▸ hn)
      rw [heq, h] at hi
      cases hi

theorem Ordered.bsearch_isSome (hst : Ordered lib st) (hn : n ≠ []) :
    (lib.bsearch st n).isSome ↔ (entry st n).isSome := by
  rw [← hst.bsearch_entry hn]
  cases h : lib.bsearch st n with
  | none => rfl
  | some i =>
      obtain ⟨v, hv, -⟩ := bsearch_some h
      rw [Option.bind_some, hv]
      exact Iff.rfl

/-! ## What a name is resolved to -/

theorem programKey_head (type : VarTypes) (program name : Bytes) :
    (programKey type program name).head? = some type.sign := by
  cases type <;> rfl

theorem labelKey_head (type : VarTypes) (pos : Position) (name : Bytes) :
    (labelKey type pos name).head? = some type.sign := by
  cases type <;> rfl

theorem ne_nil_of_head {n : Bytes} {b : UInt8} (h : n.head? = some b) : n ≠ [] := by
  rintro rfl
  cases h

theorem lookUp_eq (hst : Ordered lib st) (hn : n ≠ []) :
    lookUp lib st n = (entry st n).map fun v => (v.name, v) := by
  rw [lookUp, ← hst.bsearch_entry hn]
  cases h : lib.bsearch st n with
  | none => rfl
  | some i =>
      obtain ⟨v, hv, hname⟩ := bsearch_some h
      rw [Option.bind_some, Option.bind_some, hv, ← hname]
      rfl

def resolveEntry (st : Store) (pos : Position) (name : Bytes) (type : VarTypes) :
    Option Variable :=
  (if pos.label ≠ [] then entry st (labelKey type pos name) else none).or
    ((entry st (programKey type pos.program name)).or
      (entry st (programKey type defaultProgram name)))

theorem resolve_eq (hst : Ordered lib st) (pos : Position) (name : Bytes) (type : VarTypes) :
    resolve lib st pos name type =
      (resolveEntry st pos name type).map fun v => (v.name, v) := by
  unfold resolve resolveEntry
  rw [lookUp_eq hst (ne_nil_of_head (labelKey_head type pos name)),
    lookUp_eq hst (ne_nil_of_head (programKey_head type pos.program name)),
    lookUp_eq hst (ne_nil_of_head (programKey_head type defaultProgram name)), Option.map_or,
    Option.map_or]
  split_ifs <;> rfl

theorem variableGet_none (hst : Ordered lib st) {pos : Position} {name : Bytes}
    {type : VarTypes} (h : resolveEntry st pos name type = none) :
    variableGet lib st pos name type = none := by
  rw [variableGet, resolve_eq hst, h]
  rfl

theorem variableGet_some (hst : Ordered lib st) {pos : Position} {name : Bytes}
    {type : VarTypes} (h : resolveEntry st pos name type = some v) :
    variableGet lib st pos name type =
      if type = .userRef then some v.name else valueOf lib st v := by
  rw [variableGet, resolve_eq hst, h]
  rfl

theorem valueOf_plain (h : v.type ≠ .userRef) : valueOf lib st v = some v.value := if_neg h

end

end ScOpen
