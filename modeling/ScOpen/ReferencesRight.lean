import ScOpen.References

/-!
# When a reference is right

A parameter that is a reference to the variable reads and assigns it; anything else fails for some
value of the variable.
-/

namespace ScOpen

section

variable {lib : StoreLibrary} {st : Store} {pos : Position} {name : Bytes} {o : Variable}

/-- The variable can be given any value. -/
theorem exists_writes (hst : Ordered lib st) (ho : entry st o.name = some o) (w : Bytes) :
    ∃ st₀, Writes lib st st₀ o.name { o with value := w } ∧
      ∀ u ∈ st₀, u ∈ st ∨ u = { o with value := w } := by
  obtain ⟨hmem, -, hne⟩ := entry_mem ho
  obtain ⟨i, hi⟩ := List.mem_iff_getElem?.1 hmem
  exact ⟨_, writes_set hst hi hne w, fun u hu => List.mem_or_eq_of_mem_set hu⟩

/-- A value that is none of some texts. -/
theorem exists_fresh (texts : List Bytes) : ∃ w, w ∉ texts := by
  obtain ⟨w, hw⟩ := Infinite.exists_notMem_finset texts.toFinset
  exact ⟨w, fun hmem => hw (List.mem_toFinset.2 hmem)⟩

/-- Nested gosubs whose last reference leads elsewhere. -/
theorem not_right_of_last (hst : Ordered lib st)
    (ho : resolveEntry st pos name .userRef = some o) {m : QueueMemory} (hm : 0 < m.sizeofType)
    {calls : List RefCall} {c : RefCall}
    (hlast : cString (m.passed ((calls.map RefCall.key).getLastD o.name)) ≠ o.name ∨
      (calls ≠ [] ∧ cString (m.passed ((calls.map RefCall.key).getLastD o.name)) =
        (calls.map RefCall.key).getLastD o.name)) :
    ¬ ReferenceRight m lib st pos name o (calls ++ [c]) := by
  intro h
  obtain ⟨w, hw⟩ := exists_fresh (st.map Variable.value ++
    ((calls ++ [c]).map (fun d => putValue d.idx 0) ++
      (o.name :: calls.map RefCall.key).map m.passed))
  rw [List.mem_append, List.mem_append, not_or, not_or] at hw
  obtain ⟨hold, hidx, hpassed⟩ := hw
  obtain ⟨st₀, hwrites, hmem⟩ := exists_writes hst (resolve_entry ho).1 w
  obtain ⟨st₁, callee, param, henter, hread, -⟩ := h w st₀ hwrites
  have hheld : HeldBy st₀ w o.name := by
    intro u hu huw
    rcases hmem u hu with hu | rfl
    · exact absurd (List.mem_map.2 ⟨u, hu, huw⟩) hold
    · rfl
  refine enterCalls_ne hm hwrites.1 hheld (get_reference ho hwrites) ?_ ?_ hlast henter hread
  · exact fun d hd heq => hidx (List.mem_map.2 ⟨d, hd, heq⟩)
  · exact fun n hn heq => hpassed (List.mem_map.2 ⟨n, hn, heq⟩)

/-! ## One gosub -/

/-- The interpreter's own names are none of a variable. -/
theorem putName_ne (st : Store) (pos : Position) {n : Bytes}
    (hn : n.head? = some (VarTypes.sign .userRef)) (full : Bytes) :
    putName st pos full .sc ≠ n := by
  rintro rfl
  rw [putName_head] at hn
  revert hn
  decide

/-- The return index has the same place whatever the variable holds. -/
theorem putName_writes {st₀ : Store} {n : Bytes} {v u : Variable}
    (hwrites : Writes lib st st₀ n v) (hu : entry st n = some u) (pos : Position) (full : Bytes) :
    putName st₀ pos full .sc = putName st pos full .sc := by
  have hv : entry st₀ n = some v := by rw [hwrites.2, if_pos rfl]
  have hsame : (entry st₀ (labelKey .sc pos full)).isSome =
      (entry st (labelKey .sc pos full)).isSome := by
    rw [entry_writes hwrites hu]
    exact Option.isSome_map
  unfold putName
  rw [if_neg (ne_nil_of_entry hv), if_neg (ne_nil_of_entry hu), hsame]

/-- After one gosub the parameter holds the variable's full name. -/
theorem enter_one {m : QueueMemory} (hm : m.sizeofType = 1)
    (ho : resolveEntry st pos name .userRef = some o) (hfits : o.name.length < 2 ^ 32) {c : RefCall}
    (hreturn : ∀ v, entry st (putName st pos (cstr "RETURN." ++ c.nest) .sc) = some v →
      v.type ≠ .label) {w : Bytes} {st₀ : Store}
    (hwrites : Writes lib st st₀ o.name { o with value := w }) :
    ∃ st₁, enterCalls m lib st₀ pos name [c] = some (st₁, c.callee, c.param) ∧
      Ordered lib st₁ ∧ entry st₁ c.key = some (paramEntry lib st₀ c.key o.name) ∧
      (c.key ≠ o.name → entry st₁ o.name = some { o with value := w }) := by
  obtain ⟨hentry, -⟩ := resolve_entry ho
  have hplace := putName_writes hwrites hentry pos (cstr "RETURN." ++ c.nest)
  have hother := putName_ne st pos (resolve_head ho) (cstr "RETURN." ++ c.nest)
  rcases put_return hwrites.1 pos (cstr "RETURN." ++ c.nest) c.idx with
    ⟨⟨v, hv, hlabel⟩, -⟩ | ⟨-, st₁, v, hput, hwrites₁⟩
  · rw [hplace, hwrites.2, if_neg hother] at hv
    exact absurd hlabel (hreturn v hv)
  rw [hplace] at hwrites₁
  have hhead : c.key.head? = some (VarTypes.sign .userRef) := labelKey_head _ _ _
  have hkey := putName_ne st pos hhead (cstr "RETURN." ++ c.nest)
  have hne : st₁ ≠ [] := by
    have hsome := hwrites₁.2 (putName st pos (cstr "RETURN." ++ c.nest) .sc)
    rw [if_pos rfl] at hsome
    exact ne_nil_of_entry hsome
  obtain ⟨st₂, hparam, hwrites₂⟩ := put_param hwrites₁.1 hne c o.name
  have hsame : paramEntry lib st₁ c.key o.name = paramEntry lib st₀ c.key o.name := by
    rw [paramEntry, paramEntry, hwrites₁.2, if_neg hkey.symm]
  refine ⟨st₂, ?_, hwrites₂.1, ?_, fun hdiffer => ?_⟩
  · have henter := enter_eq (m := m) (by omega) (get_reference ho hwrites) c
    rw [passed_narrow hm hfits, hput, Option.bind_some, hparam] at henter
    rw [enterCalls, henter]
    rfl
  · rw [hwrites₂.2, if_pos rfl, hsame]
  · rw [hwrites₂.2, if_neg hdiffer.symm, hwrites₁.2, if_neg hother.symm, hwrites.2, if_pos rfl]

/-- A parameter that is no reference is read as the text of the name. -/
theorem not_right_of_value {m : QueueMemory} (hm : m.sizeofType = 1) (hst : Ordered lib st)
    (ho : resolveEntry st pos name .userRef = some o) (horiginal : o.type ≠ .userRef)
    (hfits : o.name.length < 2 ^ 32) {c : RefCall}
    (hreturn : ∀ v, entry st (putName st pos (cstr "RETURN." ++ c.nest) .sc) = some v →
      v.type ≠ .label)
    {v : Variable} (hv : entry st c.key = some v) (htype : v.type ≠ .userRef) :
    ¬ ReferenceRight m lib st pos name o [c] := by
  intro h
  obtain ⟨w, hw⟩ := exists_fresh [o.name]
  obtain ⟨st₀, hwrites, -⟩ := exists_writes hst (resolve_entry ho).1 w
  obtain ⟨st₁, callee, param, henter, hread, -⟩ := h w st₀ hwrites
  obtain ⟨st₂, hone, hord, hentry, -⟩ := enter_one hm ho hfits hreturn hwrites
  rw [hone] at henter
  cases henter
  have htype₂ : (paramEntry lib st₀ c.key o.name).type ≠ .userRef := by
    rw [paramEntry, entry_writes hwrites (resolve_entry ho).1, hv, Option.map_some]
    change (if v.name = o.name then { o with value := w } else v).type ≠ .userRef
    split_ifs
    · exact horiginal
    · exact htype
  rw [variableGet_some hord (resolve_param rfl hentry), if_neg (by decide), valueOf_plain htype₂,
    paramEntry_value] at hread
  exact hw (List.mem_singleton.2 (Option.some.inj hread).symm)

/-! ## Reading and assigning through a reference -/

theorem valueOf_reference (hst : Ordered lib st) {v u : Variable} (hv : v.type = .userRef)
    (hu : entry st (cString v.value) = some u) : valueOf lib st v = some u.value := by
  rw [valueOf, if_pos hv, lookUp_eq hst (entry_mem hu).2.2, hu]
  rfl

structure Refers (lib : StoreLibrary) (c : RefCall) (o : Variable) (st : Store) (w : Bytes) :
    Prop where
  ordered : Ordered lib st
  param : ∃ r, entry st c.key = some r ∧ r.type = .userRef ∧ cString r.value = o.name
  target : entry st o.name = some { o with value := w }
  differ : c.key ≠ o.name

theorem Refers.read {c : RefCall} {w : Bytes} (h : Refers lib c o st w) :
    variableGet lib st c.callee c.param .user = some w := by
  obtain ⟨r, hr, htype, hvalue⟩ := h.param
  have htarget := h.target
  rw [← hvalue] at htarget
  rw [variableGet_some h.ordered (resolve_param rfl hr), if_neg (by decide),
    valueOf_reference h.ordered htype htarget]

theorem Refers.assign {c : RefCall} {w : Bytes} (h : Refers lib c o st w) (v : Bytes) :
    ∃ st', variablePut lib st c.callee c.param v v.length .user = some st' ∧
      Refers lib c o st' v ∧
      ∀ n, entry st' n = if n = o.name then some { o with value := v } else entry st n := by
  obtain ⟨r, hr, htype, hvalue⟩ := h.param
  have hkey : labelKey .user c.callee c.param = c.key := rfl
  have hname : putName st c.callee c.param .user = c.key := by
    rw [putName, if_neg (ne_nil_of_entry hr), if_neg (by decide), if_neg c.in_label, hkey, hr]
    exact if_pos (.inr (.inr rfl))
  have hput : putEntry lib st c.key v .user = some (o.name, { o with value := v }) := by
    rw [putEntry_old hr, if_neg (by decide), if_pos htype, hvalue, h.target]
    rfl
  rcases variablePut_spec h.ordered c.callee c.param v v.length .user with
    ⟨hnone, -⟩ | ⟨n, u, st', hsome, hrun, hwrites⟩
  · rw [hname, putValue_length, hput] at hnone
    cases hnone
  · rw [hname, putValue_length, hput] at hsome
    cases hsome
    refine ⟨st', hrun, ⟨hwrites.1, ⟨r, ?_, htype, hvalue⟩, ?_, h.differ⟩, hwrites.2⟩
    · rw [hwrites.2, if_neg h.differ, hr]
    · rw [hwrites.2, if_pos rfl]

theorem Refers.assignAll {c : RefCall} {w : Bytes} (h : Refers lib c o st w) (vs : List Bytes)
    (v : Bytes) :
    ∃ st', assignAll lib c.callee c.param st (vs ++ [v]) = some st' ∧ Refers lib c o st' v ∧
      ∀ n, entry st' n = if n = o.name then some { o with value := v } else entry st n := by
  induction vs generalizing st w with
  | nil =>
      obtain ⟨st', hput, hrefers, hentries⟩ := h.assign v
      refine ⟨st', ?_, hrefers, hentries⟩
      rw [List.nil_append, ScOpen.assignAll, List.foldlM_cons, hput]
      rfl
  | cons x vs ih =>
      obtain ⟨st₁, hput, hrefers, hentries₁⟩ := h.assign x
      obtain ⟨st', hrest, hrefers', hentries⟩ := ih hrefers
      refine ⟨st', ?_, hrefers', fun n => ?_⟩
      · rw [List.cons_append, ScOpen.assignAll, List.foldlM_cons, hput]
        exact hrest
      · rw [hentries, hentries₁]
        split_ifs <;> rfl

/-! ## All nested gosubs -/

def NamesFit (o : Variable) (calls : List RefCall) : Prop :=
  ∀ n ∈ o.name :: calls.map RefCall.key, 0 ∉ n ∧ n.length < 2 ^ 32

theorem NamesFit.last {calls : List RefCall} {c : RefCall} (h : NamesFit o (calls ++ [c])) :
    0 ∉ (calls.map RefCall.key).getLastD o.name ∧
      ((calls.map RefCall.key).getLastD o.name).length < 2 ^ 32 := by
  apply h
  rw [List.map_append]
  rcases List.mem_cons.1 (List.getLastD_mem_cons (l := calls.map RefCall.key) (a := o.name)) with
    heq | hmem
  · rw [heq]
    exact List.mem_cons_self
  · exact List.mem_cons_of_mem _ (List.mem_append_left _ hmem)

/-- With a type of more than one byte there is memory in which nested gosubs are wrong. -/
theorem not_right_wide (hst : Ordered lib st) (ho : resolveEntry st pos name .userRef = some o)
    (hname : name ≠ []) (calls : List RefCall) (c : RefCall) (hfit : NamesFit o (calls ++ [c]))
    {k : ℕ} (hk : 2 ≤ k) (hk4 : k ≤ 4) :
    ∃ m : QueueMemory, m.sizeofType = k ∧
      ¬ ReferenceRight m lib st pos name o (calls ++ [c]) := by
  obtain ⟨m, hm, hother⟩ := passed_wide hk hk4 hfit.last.1 (resolve_length ho hname)
  exact ⟨m, hm, not_right_of_last hst ho (by omega) (.inl hother)⟩

/-- With a type of one byte two nested gosubs are wrong. -/
theorem not_right_nested (hst : Ordered lib st) (ho : resolveEntry st pos name .userRef = some o)
    (calls : List RefCall) (c : RefCall) (hfit : NamesFit o (calls ++ [c])) (hne : calls ≠ [])
    {m : QueueMemory} (hm : m.sizeofType = 1) :
    ¬ ReferenceRight m lib st pos name o (calls ++ [c]) := by
  obtain ⟨hzero, hfits⟩ := hfit.last
  refine not_right_of_last hst ho (by omega) (.inr ⟨hne, ?_⟩)
  rw [passed_narrow hm hfits, cString_eq_self hzero]

/-- A gosub that does not stop the program puts its return index. -/
theorem return_of_right {m : QueueMemory} (hm : 0 < m.sizeofType) (hst : Ordered lib st)
    (ho : resolveEntry st pos name .userRef = some o) {c : RefCall}
    (h : ReferenceRight m lib st pos name o [c]) (v : Variable)
    (hv : entry st (putName st pos (cstr "RETURN." ++ c.nest) .sc) = some v) : v.type ≠ .label := by
  obtain ⟨hentry, -⟩ := resolve_entry ho
  obtain ⟨st₀, hwrites, -⟩ := exists_writes hst hentry o.value
  obtain ⟨st₁, callee, param, hcalls, -⟩ := h o.value st₀ hwrites
  obtain ⟨st₂, henter, -⟩ := Option.bind_eq_some_iff.1 hcalls
  obtain ⟨st₃, hput, -⟩ := enter_writes hm hwrites.1 (get_reference ho hwrites) henter
  have hother := putName_ne st pos (resolve_head ho) (cstr "RETURN." ++ c.nest)
  rcases put_return hwrites.1 pos (cstr "RETURN." ++ c.nest) c.idx with
    ⟨-, hnone⟩ | ⟨hlabel, -⟩
  · rw [hput] at hnone
    cases hnone
  · apply hlabel
    rw [putName_writes hwrites hentry, hwrites.2, if_neg hother, hv]

theorem right_of_one {m : QueueMemory} (hm : m.sizeofType = 1)
    (ho : resolveEntry st pos name .userRef = some o) (horiginal : o.type ≠ .userRef)
    (hzero : 0 ∉ o.name) (hfits : o.name.length < 2 ^ 32) {c : RefCall}
    (hparam : ∀ v, entry st c.key = some v → v.type = .userRef)
    (hreturn : ∀ v, entry st (putName st pos (cstr "RETURN." ++ c.nest) .sc) = some v →
      v.type ≠ .label) :
    ReferenceRight m lib st pos name o [c] := by
  intro w st₀ hwrites
  obtain ⟨hentry, -⟩ := resolve_entry ho
  obtain ⟨st₁, henter, hord, hkey, htarget⟩ := enter_one hm ho hfits hreturn hwrites
  have hdiffer : c.key ≠ o.name := by
    intro heq
    rw [← heq] at hentry
    exact horiginal (hparam o hentry)
  have hsame : entry st₀ c.key = entry st c.key := by rw [hwrites.2, if_neg hdiffer]
  have htype : (paramEntry lib st₀ c.key o.name).type = .userRef := by
    rw [paramEntry, hsame]
    cases hv : entry st c.key with
    | none => rfl
    | some v => exact hparam v hv
  have hvalue : cString (paramEntry lib st₀ c.key o.name).value = o.name := by
    rw [paramEntry_value, cString_eq_self hzero]
  have hrefers : Refers lib c o st₁ w := ⟨hord, ⟨_, hkey, htype, hvalue⟩, htarget hdiffer, hdiffer⟩
  refine ⟨st₁, c.callee, c.param, henter, hrefers.read, fun vs v => ?_⟩
  obtain ⟨st₂, hrun, hrefers₂, hentries⟩ := hrefers.assignAll vs v
  exact ⟨st₂, hrun, hrefers₂.read, hentries⟩

end

/-- Passing a variable by reference through nested gosubs is right, whatever lies in memory, exactly
for one gosub with a fitting parameter, and only when a type has the width of a byte. -/
theorem references_right_iff (lib : StoreLibrary) (r : Tracked) (hr : r.Reached lib)
    (pos : Position) (name : Bytes) (o : Variable)
    (ho : resolveEntry r.store pos name .userRef = some o) (horiginal : o.type ≠ .userRef)
    (hname : name ≠ []) (calls : List RefCall) (hcalls : calls ≠ []) (hfit : NamesFit o calls)
    (k : ℕ) (hk : 1 ≤ k) (hk4 : k ≤ 4) :
    (∀ m : QueueMemory, m.sizeofType = k → ReferenceRight m lib r.store pos name o calls) ↔
      k = 1 ∧ OneLevel r.store pos calls := by
  have hst := hr.right.ordered
  constructor
  · intro h
    obtain ⟨init, c, rfl⟩ := (List.eq_nil_or_concat' calls).resolve_left hcalls
    have hone : k = 1 := by
      by_contra hne
      obtain ⟨m, hm, hwrong⟩ := not_right_wide hst ho hname init c hfit (by omega) hk4
      exact hwrong (h m hm)
    subst hone
    have hright := h (besideType 1 0) rfl
    have hinit : init = [] := by
      by_contra hne
      exact not_right_nested hst ho init c hfit hne rfl hright
    subst hinit
    have hfits := (hfit.last).2
    have hreturn := return_of_right (by decide) hst ho hright
    refine ⟨rfl, c, rfl, fun v hv => ?_, hreturn⟩
    by_contra htype
    exact not_right_of_value rfl hst ho horiginal hfits hreturn hv htype hright
  · rintro ⟨rfl, c, rfl, hparam, hreturn⟩ m hm
    obtain ⟨hzero, hfits⟩ := hfit o.name List.mem_cons_self
    exact right_of_one hm ho horiginal hzero hfits hparam hreturn

def variableX : Variable := ⟨cstr "()x", cstr "1", .user, getHash (cstr "()x")⟩

theorem variableX_reached : Tracked.Reached plainLibrary ⟨[variableX], [cstr "()x"]⟩ := by
  have hstart : Tracked.Starts ⟨[], []⟩ := rfl
  have hput : Tracked.step plainLibrary ⟨[], []⟩ (.put topLevel (cstr "x") (cstr "1") 1 .user) =
      some ⟨[variableX], [cstr "()x"]⟩ := rfl
  exact (Runs.Reaches.start hstart).next trivial hput

/-- `gosub s x` for `label s p`. -/
def gosubS : RefCall := ⟨⟨defaultProgram, cstr "s"⟩, cstr "p", cstr "1", cstr "4", by decide⟩

/-- `gosub t p` for `label t q`. -/
def gosubT : RefCall := ⟨⟨defaultProgram, cstr "t"⟩, cstr "q", cstr "2", cstr "8", by decide⟩

theorem namesFit_nested : NamesFit variableX [gosubS, gosubT] := by
  unfold NamesFit
  decide

theorem references_right_iff_one :
    (∀ m : QueueMemory, m.sizeofType = 1 →
        ReferenceRight m plainLibrary [variableX] topLevel (cstr "x") variableX [gosubS]) ↔
      1 = 1 ∧ OneLevel [variableX] topLevel [gosubS] := by
  refine references_right_iff plainLibrary ⟨[variableX], [cstr "()x"]⟩ variableX_reached topLevel
    (cstr "x") variableX rfl (by decide) (by decide) [gosubS] (List.cons_ne_nil _ _) ?_ 1 le_rfl
    (by decide)
  exact fun n hn => namesFit_nested n (List.mem_of_mem_take (i := 2) hn)

/-- A variable that is passed on twice, whatever the width of a type. -/
theorem references_not_always_right :
    ¬ ∃ k, 1 ≤ k ∧ k ≤ 4 ∧ ∀ m : QueueMemory, m.sizeofType = k →
      ReferenceRight m plainLibrary [variableX] topLevel (cstr "x") variableX [gosubS, gosubT] := by
  rintro ⟨k, hk, hk4, h⟩
  have hst := variableX_reached.right.ordered
  have hx : resolveEntry [variableX] topLevel (cstr "x") .userRef = some variableX := rfl
  by_cases hone : k = 1
  · exact not_right_nested hst hx [gosubS] gosubT namesFit_nested (List.cons_ne_nil _ _)
      (m := besideType 1 0) rfl (h (besideType 1 0) hone.symm)
  · have hwide : 2 ≤ k := by omega
    obtain ⟨m, hm, hwrong⟩ := not_right_wide hst hx (by decide) [gosubS] gosubT namesFit_nested
      hwide hk4
    exact hwrong (h m hm)

end ScOpen
