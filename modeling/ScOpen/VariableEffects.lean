import ScOpen.VariableOrder

/-!
# What the operations on the store do

Each operation is described by the entries before and after it, and keeps the store ordered. A put
writes one entry: that of the full name the put is resolved to, or the one a reference names.
-/

namespace ScOpen

def putName (st : Store) (pos : Position) (name : Bytes) (type : VarTypes) : Bytes :=
  if st = [] then programKey type pos.program name
  else if type = .userGlobal then programKey type defaultProgram name
  else if pos.label = [] then programKey type pos.program name
  else if type = .userLocal ∨ type = .userRef ∨ (entry st (labelKey type pos name)).isSome then
    labelKey type pos name
  else programKey type pos.program name

theorem putName_head (st : Store) (pos : Position) (name : Bytes) (type : VarTypes) :
    (putName st pos name type).head? = some type.sign := by
  unfold putName
  split_ifs
  · exact programKey_head _ _ _
  · exact programKey_head _ _ _
  · exact programKey_head _ _ _
  · exact labelKey_head _ _ _
  · exact programKey_head _ _ _

theorem putName_ne_nil (st : Store) (pos : Position) (name : Bytes) (type : VarTypes) :
    putName st pos name type ≠ [] := ne_nil_of_head (putName_head st pos name type)

def Writes (lib : StoreLibrary) (st st' : Store) (n : Bytes) (v : Variable) : Prop :=
  Ordered lib st' ∧ ∀ m, entry st' m = if m = n then some v else entry st m

section

variable {lib : StoreLibrary} {st : Store} {n : Bytes} {i : ℕ} {v : Variable}

theorem choose_none (hst : Ordered lib st) (hn : n ≠ []) (h : entry st n = none) :
    choose lib st n = .addIt n := by
  have hsearch := hst.bsearch_isSome hn
  rw [h] at hsearch
  cases hs : lib.bsearch st n with
  | none => rw [choose, hs]
  | some i =>
      rw [hs] at hsearch
      exact absurd (hsearch.1 rfl) Bool.false_ne_true

theorem choose_some (hst : Ordered lib st) (h : entry st n = some v) :
    ∃ i, st[i]? = some v ∧ choose lib st n = .updateIt i := by
  obtain ⟨hmem, rfl, hne⟩ := entry_mem h
  obtain ⟨i, hi, hv⟩ := hst.bsearch_of_mem hmem hne
  exact ⟨i, hv, by rw [choose, hi]⟩

theorem whatToDo_eq (hst : Ordered lib st) (pos : Position) (name : Bytes) (type : VarTypes) :
    whatToDo lib st pos name type = choose lib st (putName st pos name type) := by
  unfold whatToDo putName
  by_cases hnil : st = []
  · subst hnil
    rw [if_pos rfl, if_pos rfl,
      choose_none ordered_nil (ne_nil_of_head (programKey_head _ _ _)) rfl]
  rw [if_neg hnil, if_neg hnil]
  by_cases hglobal : type = .userGlobal
  · rw [if_pos hglobal, if_pos hglobal]
  rw [if_neg hglobal, if_neg hglobal]
  by_cases hlabel : pos.label = []
  · rw [if_pos hlabel, if_neg (not_not.2 hlabel), if_neg (not_not.2 hlabel)]
    exact ite_self _
  rw [if_neg hlabel, if_pos hlabel, if_pos hlabel]
  by_cases hlocal : type = .userLocal
  · rw [if_pos hlocal, if_pos (.inl hlocal)]
  rw [if_neg hlocal]
  have hlabelKey := ne_nil_of_head (labelKey_head type pos name)
  by_cases hkey : type = .userRef ∨ (entry st (labelKey type pos name)).isSome
  · rw [if_pos (Or.inr hkey : type = .userLocal ∨ _)]
    unfold choose
    cases hs : lib.bsearch st (labelKey type pos name) with
    | some j => rfl
    | none =>
        have href : type = .userRef := by
          refine hkey.resolve_right fun he => ?_
          rw [← hst.bsearch_isSome hlabelKey, hs] at he
          cases he
        exact if_pos href
  · rw [if_neg (not_or.2 ⟨hlocal, hkey⟩)]
    obtain ⟨href, he⟩ := not_or.1 hkey
    rw [← hst.bsearch_isSome hlabelKey, Option.not_isSome_iff_eq_none] at he
    rw [he]
    exact if_neg href

/-! ## Adding and overwriting -/

theorem writes_addIt (hst : Ordered lib st) (value : Bytes) (type : VarTypes)
    (hhead : n.head? = some type.sign) (hnone : entry st n = none) :
    Writes lib st (addIt lib st n value type) n (lib.named n value type) := by
  have hn := ne_nil_of_head hhead
  have hfresh : ∀ v ∈ st, v.name ≠ n := (entry_eq_none.1 hnone).resolve_left hn
  have hperm : (addIt lib st n value type).Perm (lib.named n value type :: st) :=
    SortedArray.perm_insertAt _ _ _
  have hord : Ordered lib (addIt lib st n value type) := by
    refine ⟨SortedArray.sorted_place nameCmp_eq_compare hst.sorted, ?_, ?_, ?_⟩
    · have hsymm : ∀ a b : Bytes, (a = b → a = []) → b = a → b = [] := by
        intro a b h heq
        rw [heq]
        exact h heq.symm
      refine ((hperm.map _).pairwise_iff (hsymm _ _ ·)).2 ?_
      rw [List.map_cons, List.pairwise_cons]
      refine ⟨?_, hst.distinct⟩
      intro m hm heq
      obtain ⟨v, hv, rfl⟩ := List.mem_map.1 hm
      exact absurd heq.symm (hfresh v hv)
    · intro v hv hne
      rcases List.mem_cons.1 (hperm.mem_iff.1 hv) with rfl | hv
      · rfl
      · exact hst.hashed v hv hne
    · intro v hv hne
      rcases List.mem_cons.1 (hperm.mem_iff.1 hv) with rfl | hv
      · exact hhead
      · exact hst.signed v hv hne
  refine ⟨hord, fun m => ?_⟩
  by_cases hm : m = n
  · subst hm
    rw [if_pos rfl]
    exact hord.entry_iff.2 ⟨hperm.mem_iff.2 List.mem_cons_self, rfl, hn⟩
  · rw [if_neg hm]
    apply Option.ext
    intro v
    rw [hord.entry_iff, hst.entry_iff, hperm.mem_iff, List.mem_cons]
    constructor
    · rintro ⟨rfl | hv, hname, hne⟩
      · exact absurd hname.symm hm
      · exact ⟨hv, hname, hne⟩
    · rintro ⟨hv, hname, hne⟩
      exact ⟨.inr hv, hname, hne⟩

theorem writes_set (hst : Ordered lib st) (hi : st[i]? = some v) (hne : v.name ≠ [])
    (value : Bytes) :
    Writes lib st (st.set i { v with value := value }) v.name { v with value := value } := by
  have hlt := (List.getElem?_eq_some_iff.1 hi).1
  have hmem := List.mem_of_getElem? hi
  have hord : Ordered lib (st.set i { v with value := value }) := by
    refine ⟨SortedArray.sorted_set hst.sorted hi rfl, ?_, ?_, ?_⟩
    · have hnames : (st.set i { v with value := value }).map Variable.name =
          st.map Variable.name := SortedArray.map_set hi rfl
      rw [hnames]
      exact hst.distinct
    · intro u hu huname
      rcases List.mem_or_eq_of_mem_set hu with hu | rfl
      · exact hst.hashed u hu huname
      · exact hst.hashed v hmem hne
    · intro u hu huname
      rcases List.mem_or_eq_of_mem_set hu with hu | rfl
      · exact hst.signed u hu huname
      · exact hst.signed v hmem hne
  refine ⟨hord, fun m => ?_⟩
  by_cases hm : m = v.name
  · subst hm
    rw [if_pos rfl]
    refine hord.entry_iff.2 ⟨?_, rfl, hne⟩
    exact List.mem_iff_getElem?.2 ⟨i, List.getElem?_set_self hlt⟩
  · rw [if_neg hm]
    apply Option.ext
    intro u
    rw [hord.entry_iff, hst.entry_iff]
    constructor
    · rintro ⟨hu, hname, hn⟩
      rcases List.mem_or_eq_of_mem_set hu with hu | rfl
      · exact ⟨hu, hname, hn⟩
      · exact absurd hname.symm hm
    · rintro ⟨hu, hname, hn⟩
      obtain ⟨j, hj⟩ := List.mem_iff_getElem?.1 hu
      have hij : i ≠ j := by
        rintro rfl
        rw [hi] at hj
        cases hj
        exact hm hname.symm
      exact ⟨List.mem_iff_getElem?.2 ⟨j, by rw [List.getElem?_set_ne hij, hj]⟩, hname, hn⟩

theorem overwrite_eq (hi : st[i]? = some v) (hne : v.name ≠ []) (value : Bytes) :
    overwrite st i value = some (st.set i { v with value := value }) := by
  rw [overwrite, hi]
  exact if_neg hne

theorem writes_overwrite (hst : Ordered lib st) (h : entry st n = some v) (hi : st[i]? = some v)
    (value : Bytes) :
    ∃ st', overwrite st i value = some st' ∧ Writes lib st st' n { v with value := value } := by
  obtain ⟨-, rfl, hne⟩ := entry_mem h
  exact ⟨_, overwrite_eq hi hne value, writes_set hst hi hne value⟩

/-! ## `variable_put()` -/

theorem putValue_length (value : Bytes) : putValue value value.length = value := by
  unfold putValue
  split_ifs with h
  · rw [List.length_eq_zero_iff.1 h]
    rfl
  · exact List.take_length

theorem ne_nil_of_entry {n : Bytes} {v : Variable} (h : entry st n = some v) : st ≠ [] := by
  rintro rfl
  cases h

def putEntry (lib : StoreLibrary) (st : Store) (n value : Bytes) (type : VarTypes) :
    Option (Bytes × Variable) :=
  match entry st n with
  | none => some (n, lib.named n value type)
  | some v =>
      if type = .userRef then some (n, { v with value := value })
      else if v.type = .userRef then
        (entry st (cString v.value)).map fun u => (cString v.value, { u with value := value })
      else if v.type = .userDefine then some (n, v)
      else if v.type = .label then none
      else some (n, { v with value := value })

theorem putEntry_new (h : entry st n = none) (value : Bytes) (type : VarTypes) :
    putEntry lib st n value type = some (n, lib.named n value type) := by
  rw [putEntry, h]

theorem putEntry_old (h : entry st n = some v) (value : Bytes) (type : VarTypes) :
    putEntry lib st n value type =
      if type = .userRef then some (n, { v with value := value })
      else if v.type = .userRef then
        (entry st (cString v.value)).map fun u => (cString v.value, { u with value := value })
      else if v.type = .userDefine then some (n, v)
      else if v.type = .label then none
      else some (n, { v with value := value }) := by
  rw [putEntry, h]

theorem updateIt_through (hst : Ordered lib st) (hi : st[i]? = some v) (value : Bytes)
    {type : VarTypes} (htype : type ≠ .userRef) (href : v.type = .userRef) :
    (entry st (cString v.value) = none ∧ updateIt lib st i value type = none) ∨
      ∃ u st', entry st (cString v.value) = some u ∧ updateIt lib st i value type = some st' ∧
        Writes lib st st' (cString v.value) { u with value := value } := by
  have hupdate : updateIt lib st i value type =
      (lib.bsearch st (cString v.value)).bind fun j => overwrite st j value := by
    rw [updateIt, hi]
    exact (if_neg htype).trans (if_pos href)
  rw [hupdate]
  cases he : entry st (cString v.value) with
  | some u =>
      obtain ⟨hmem, hname, hne⟩ := entry_mem he
      obtain ⟨j, hj, hu⟩ := hst.bsearch_of_mem hmem (hname ▸ hne)
      obtain ⟨st', hst', hwrites⟩ := writes_overwrite hst he hu value
      rw [hname] at hj
      exact .inr ⟨u, st', rfl, by rw [hj]; exact hst', hwrites⟩
  | none =>
      refine .inl ⟨rfl, ?_⟩
      cases hs : lib.bsearch st (cString v.value) with
      | none => rfl
      | some j =>
          obtain ⟨u, hu, hname⟩ := bsearch_some hs
          have hblank : cString v.value = [] := by
            rcases entry_eq_none.1 he with hnil | hfresh
            · exact hnil
            · exact absurd hname (hfresh u (List.mem_of_getElem? hu))
          change overwrite st j value = none
          rw [overwrite, hu]
          exact if_pos (hname.trans hblank)

/-- A put writes the entry `putEntry` tells, and stops the program where there is none. -/
theorem variablePut_spec (hst : Ordered lib st) (pos : Position) (name value : Bytes)
    (length : ℕ) (type : VarTypes) :
    (putEntry lib st (putName st pos name type) (putValue value length) type = none ∧
      variablePut lib st pos name value length type = none) ∨
    ∃ n v st', putEntry lib st (putName st pos name type) (putValue value length) type =
        some (n, v) ∧
      variablePut lib st pos name value length type = some st' ∧ Writes lib st st' n v := by
  rw [variablePut, whatToDo_eq hst]
  cases he : entry st (putName st pos name type) with
  | none =>
      rw [choose_none hst (putName_ne_nil st pos name type) he]
      exact .inr ⟨_, _, _, putEntry_new he _ _, rfl,
        writes_addIt hst _ type (putName_head st pos name type) he⟩
  | some v =>
      obtain ⟨i, hi, hchoose⟩ := choose_some hst he
      rw [hchoose, putEntry_old he]
      change (_ ∧ updateIt lib st i (putValue value length) type = none) ∨
        ∃ n w st', _ ∧ updateIt lib st i (putValue value length) type = some st' ∧ _
      by_cases htype : type = .userRef
      · obtain ⟨st', hst', hwrites⟩ := writes_overwrite hst he hi (putValue value length)
        refine .inr ⟨_, _, st', if_pos htype, ?_, hwrites⟩
        rw [updateIt, hi]
        exact (if_pos htype).trans hst'
      by_cases href : v.type = .userRef
      · rcases updateIt_through hst hi (putValue value length) htype href with
          ⟨hnone, hput⟩ | ⟨u, st', hu, hput, hwrites⟩
        · refine .inl ⟨?_, hput⟩
          rw [if_neg htype, if_pos href, hnone]
          rfl
        · refine .inr ⟨_, _, st', ?_, hput, hwrites⟩
          rw [if_neg htype, if_pos href, hu]
          rfl
      by_cases hdef : v.type = .userDefine
      · refine .inr ⟨putName st pos name type, v, st, ?_, ?_, hst, ?_⟩
        · rw [if_neg htype, if_neg href, if_pos hdef]
        · rw [updateIt, hi]
          exact (if_neg htype).trans ((if_neg href).trans (if_pos hdef))
        · intro m
          by_cases hm : m = putName st pos name type
          · rw [if_pos hm, hm, he]
          · rw [if_neg hm]
      by_cases hlabel : v.type = .label
      · refine .inl ⟨?_, ?_⟩
        · rw [if_neg htype, if_neg href, if_neg hdef, if_pos hlabel]
        · rw [updateIt, hi]
          exact (if_neg htype).trans
            ((if_neg href).trans ((if_neg hdef).trans (if_pos hlabel)))
      · obtain ⟨st', hst', hwrites⟩ := writes_overwrite hst he hi (putValue value length)
        refine .inr ⟨_, _, st', ?_, ?_, hwrites⟩
        · rw [if_neg htype, if_neg href, if_neg hdef, if_neg hlabel]
        · rw [updateIt, hi]
          exact (if_neg htype).trans
            ((if_neg href).trans ((if_neg hdef).trans ((if_neg hlabel).trans hst')))

/-- A put that is resolved to a defined entry changes nothing. -/
theorem variablePut_defined (hst : Ordered lib st) {pos : Position} {name : Bytes}
    {type : VarTypes} (htype : type ≠ .userRef)
    (he : entry st (putName st pos name type) = some v) (hdef : v.type = .userDefine)
    (value : Bytes) (length : ℕ) : variablePut lib st pos name value length type = some st := by
  obtain ⟨i, hi, hchoose⟩ := choose_some hst he
  have href : v.type ≠ .userRef := by
    rw [hdef]
    decide
  rw [variablePut, whatToDo_eq hst, hchoose]
  change updateIt lib st i _ type = _
  rw [updateIt, hi]
  exact (if_neg htype).trans ((if_neg href).trans (if_pos hdef))

end

end ScOpen
