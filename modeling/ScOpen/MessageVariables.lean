import ScOpen.ItemPaths
import ScOpen.SecsRoundTrip
import ScOpen.StoredElements
import ScOpen.TmpArguments

/-!
# The variables of whole messages

The decoder gives every item of a message its variables, whatever the types of the items are. Their
names tell the items and the elements apart, so that in the table of temporary variables every one
is found with its own value.
-/

namespace ScOpen

/-! ## Items of every type -/

def arrayVars (array : Bool) (whole : List TmpVariable) (name : Bytes) (texts : List Bytes) :
    List TmpVariable :=
  (if texts = [] then [(name, [])] else []) ++ numbered name array 0 texts ++
    if array then whole ++ [(name, cstr "ARRAY"), (name ++ cstr "[0]", intText texts.length)] else []

def Leaf.variables (name : Bytes) : Leaf → List TmpVariable
  | .ascii text => [(name, text)]
  | .binary bytes => arrayVars (1 < bytes.length) [(name ++ cstr "[]", bytes.flatMap myBtoh)] name
      (bytes.map fun b => intText b.toNat)
  | .boolean bs => arrayVars (1 < bs.length) [] name
      (bs.map fun b => if b then cstr "1" else cstr "0")
  | .integers t vs => arrayVars (t.isArray vs.length) [] name (vs.map fun d => intText d.value)

def Sml.variables (name : Bytes) : ℕ → Sml → List TmpVariable
  | _, .done => []
  | i, .list kids next =>
      (positionName name i, intText kids.count) :: kids.variables (positionName name i) 1 ++
        next.variables name (i + 1)
  | i, .leaf v next => v.variables (positionName name i) ++ next.variables name (i + 1)

theorem elementVars_bytes {α : Type} {k : ElementKind} (hwidth : k.width = 1) {byte : α → UInt8}
    {text : α → Bytes} (htext : ∀ a, k.value [byte a] = text a) (name : Bytes) (array : Bool)
    (i : ℕ) (as : List α) (tail : Bytes) :
    elementVars k name array as.length i (as.map byte ++ tail) =
      numbered name array i (as.map text) := by
  induction as generalizing i with
  | nil => rfl
  | cons a as ih =>
      simp only [List.length_cons, elementVars, hwidth, List.map_cons, List.cons_append,
        List.take_succ_cons, List.take_zero, List.drop_succ_cons, List.drop_zero, htext, numbered,
        ih]

/-- The decoder's variables for an item of single bytes. -/
theorem elementItemVars_bytes {α : Type} {k : ElementKind} (hwidth : k.width = 1)
    (hempty : k.emptyVariable = true) {byte : α → UInt8} {text : α → Bytes}
    (htext : ∀ a, k.value [byte a] = text a) (name : Bytes) (as : List α) (tail : Bytes) :
    elementItemVars k name as.length (as.map byte ++ tail) =
      arrayVars (k.isArray as.length)
        (if k.wholeVariable then [(name ++ cstr "[]", (as.map byte).flatMap myBtoh)] else []) name
        (as.map text) := by
  have hcount : myItoa (as.length : ℤ) = intText as.length := myItoa_eq_intText (by omega)
  have htake : (as.map byte ++ tail).take as.length = as.map byte := by
    apply List.take_left'
    rw [List.length_map]
  simp only [elementItemVars, arrayVars, hwidth, Nat.div_one, hempty, and_true,
    elementVars_bytes hwidth htext, List.length_map, hcount, htake, List.map_eq_nil_iff,
    List.length_eq_zero_iff]
  cases k.isArray as.length with
  | true => cases k.wholeVariable <;> simp
  | false => simp

/-- The decoder's variables for an item whose values are all kept. -/
theorem Leaf.itemVars_variables (fl : FloatText) {v : Leaf} (hkept : v.Kept) (name tail : Bytes) :
    itemVars fl v.secsType name v.data.length (v.data ++ tail) = v.variables name := by
  cases v with
  | ascii text =>
      simp only [Leaf.secsType, Leaf.data, itemVars, List.take_left, Leaf.variables]
  | binary bytes =>
      have hvars := elementItemVars_bytes (k := binaryKind) rfl rfl
        (fun b => myItoa_eq_intText (v := (b : UInt8).toNat) (by omega)) name bytes tail
      rw [List.map_id'] at hvars
      exact hvars
  | boolean bs =>
      have htext : ∀ b : Bool, booleanKind.value [if b then 1 else 0] =
          if b then cstr "1" else cstr "0" := by
        rintro (_ | _) <;> rfl
      have hlength : (Leaf.boolean bs).data.length = bs.length := by rw [Leaf.data, List.length_map]
      rw [hlength]
      exact elementItemVars_bytes rfl rfl htext name bs tail
  | integers t vs =>
      have hint : (Leaf.integers t vs).IsInteger := trivial
      rw [Leaf.itemVars_kept fl hint hkept]
      simp only [Leaf.vars, numberVars, Leaf.variables, arrayVars, List.length_map, List.nil_append]

section

variable {fl : FloatText} {varPrefix : Bytes} {r : ℕ × DecodeState}

/-- The decoder adds the variables of the items of every type. -/
theorem Passes.variables {f : Sml} (hkept : f.All Leaf.Kept) (hsizes : f.SizesFit) {top : Frame}
    {below : List Frame} {vars : List TmpVariable} {tail : Bytes}
    (hpass : Passes fl varPrefix r (f.encode ++ tail) (top :: below) vars)
    (hopen : ∀ i, 0 < i → i < f.count → sub32 top.e i ≠ 0) :
    Passes fl varPrefix r tail (framesPast f.count top below)
      (vars ++ f.variables (itemName varPrefix below) (top.ie + 1)) := by
  induction f generalizing top below vars tail with
  | done => simpa [Sml.encode, Sml.count, framesPast, Sml.variables] using hpass
  | list kids next ihkids ihnext =>
      have hnext : Passes fl varPrefix r (next.encode ++ tail)
          (closed (⟨sub32 top.e 1, top.ie + 1⟩ :: below))
          (vars ++ [(positionName (itemName varPrefix below) (top.ie + 1), intText kids.count)] ++
            kids.variables (positionName (itemName varPrefix below) (top.ie + 1)) 1) := by
        have hcount : myItoa (kids.count : ℤ) = intText kids.count := myItoa_eq_intText (by omega)
        have hlt : kids.count < 2 ^ 32 := hsizes.1.trans (by decide)
        rw [Sml.encode, List.append_assoc, List.append_assoc] at hpass
        have hturn := hpass.turn (takeHeader_minHeader _ _ _) (secsType?_code .list)
        rw [nextName_eq, Nat.mod_eq_of_lt hsizes.1] at hturn
        simp only [SecsType.ownBytes, List.drop_zero, itemVars, hcount] at hturn
        by_cases hzero : kids.count = 0
        · rw [framesAfter_of_not_list fun h => h.2 hzero] at hturn
          rw [Sml.eq_done_of_count hzero] at hturn ⊢
          simpa [Sml.encode, Sml.variables] using hturn
        · rw [framesAfter_list hzero] at hturn
          have hkids := ihkids hkept.1 hsizes.2.1 hturn fun i _ hi => list_stays_open hlt i hi
          rwa [framesPast_list hzero hlt, itemName_cons] at hkids
      rw [Sml.variables, Sml.count, framesPast_succ]
      by_cases hzero : next.count = 0
      · rw [Sml.eq_done_of_count hzero] at hnext ⊢
        simpa [Sml.encode, Sml.count, Sml.variables] using hnext
      · obtain ⟨hframes, hopen'⟩ := frames_next below hopen hzero
        rw [hframes] at hnext
        have hrest := ihnext hkept.2 hsizes.2.2 hnext hopen'
        rw [if_neg hzero]
        simpa using hrest
  | leaf v next ih =>
      have hnext : Passes fl varPrefix r (next.encode ++ tail)
          (closed (⟨sub32 top.e 1, top.ie + 1⟩ :: below))
          (vars ++ v.variables (positionName (itemName varPrefix below) (top.ie + 1))) := by
        rw [Sml.encode, List.append_assoc, List.append_assoc] at hpass
        have hturn := hpass.turn (takeHeader_minHeader _ _ _) (secsType?_code v.secsType)
        rw [nextName_eq, Nat.mod_eq_of_lt hsizes.1] at hturn
        simp only [v.ownBytes, List.drop_left] at hturn
        rw [framesAfter_of_not_list fun h => v.secsType_ne_list h.1] at hturn
        rwa [v.itemVars_variables fl hkept.1] at hturn
      rw [Sml.variables, Sml.count, framesPast_succ]
      by_cases hzero : next.count = 0
      · rw [Sml.eq_done_of_count hzero] at hnext ⊢
        simpa [Sml.encode, Sml.count, Sml.variables] using hnext
      · obtain ⟨hframes, hopen'⟩ := frames_next below hopen hzero
        rw [hframes] at hnext
        have hrest := ih hkept.2 hsizes.2 hnext hopen'
        rw [if_neg hzero]
        simpa using hrest

end

/-- What was encoded is decoded to the variables of the items. -/
theorem secsDecode_variables (fl : FloatText) (varPrefix log : Bytes) {f : Sml}
    (hkept : f.All Leaf.Kept) (hsizes : f.SizesFit) (h : f.encode.length < 2 ^ 32)
    (hfits : FitsBuffers fl varPrefix ⟨f.encode, h⟩) :
    ∃ out, secsDecode fl varPrefix ⟨f.encode, h⟩ log = .ok (0, out) ∧
      out.vars = f.variables varPrefix 1 := by
  have hend : (walk f.encode).2.status = some 0 := by
    rw [Sml.walk_encode_all hsizes]
    rfl
  obtain ⟨out, hrun⟩ := (secsDecode_status_iff fl varPrefix ⟨f.encode, h⟩ log 0).2 ⟨hfits, hend⟩
  have hopen := bottom_stays_open (Sml.stored_eq_encode hkept hsizes ▸ h)
  have hpass := passes_start h hrun
  rw [← List.append_nil f.encode] at hpass
  have hname : itemName varPrefix [] = varPrefix := by simp [itemName]
  have hdone := (hpass.variables hkept hsizes hopen).finished
  rw [hname, List.nil_append] at hdone
  exact ⟨out, hrun, hdone⟩

/-! ## Names -/

def IsIndexPart (part : Bytes) : Prop := part = [] ∨ part.head? = some (chr '[')

theorem indexName_injective (name : Bytes) : Function.Injective (indexName name) := by
  intro i j h
  have htail := List.append_cancel_left h
  rw [List.cons.injEq] at htail
  exact decimal_injective (List.append_cancel_right htail.2)

theorem indexName_ne_name (name : Bytes) (i : ℕ) : indexName name i ≠ name := by
  intro h
  have hnil := List.append_right_eq_self.1 h
  cases hnil

theorem indexName_ne_whole (name : Bytes) (i : ℕ) : indexName name i ≠ name ++ cstr "[]" := by
  intro h
  have htail := List.append_cancel_left h
  have hlength := congrArg List.length htail
  have hpos := List.length_pos_of_ne_nil (decimal_ne_nil i)
  have htwo : (cstr "[]").length = 2 := rfl
  rw [htwo, List.length_cons, List.length_append, List.length_singleton] at hlength
  omega

theorem map_fst_numbered (name : Bytes) (i : ℕ) (texts : List Bytes) :
    (numbered name true i texts).map Prod.fst =
      (List.range' (i + 1) texts.length).map (indexName name) := by
  induction texts generalizing i with
  | nil => rfl
  | cons text texts ih =>
      rw [numbered, List.map_cons, ih, List.length_cons, List.range'_succ, List.map_cons,
        elementName_array]

section

variable {array : Bool} {whole : List TmpVariable} {name : Bytes} {texts : List Bytes}

/-- The names of an array, or the name of the item alone. -/
theorem map_fst_arrayVars (harray : array = true → texts ≠ [])
    (hsingle : array = false → texts.length ≤ 1) :
    (arrayVars array whole name texts).map Prod.fst =
      if array then (List.range' 1 texts.length).map (indexName name) ++
        (whole.map Prod.fst ++ [name, indexName name 0])
      else [name] := by
  cases array with
  | true =>
      have hzero : name ++ cstr "[0]" = indexName name 0 := by
        rw [indexName, decimal, if_pos (by decide)]
        rfl
      rw [arrayVars, if_neg (harray rfl), if_pos rfl, if_pos rfl, List.nil_append, List.map_append,
        List.map_append, map_fst_numbered, hzero]
      rfl
  | false =>
      have hle := hsingle rfl
      rcases texts with _ | ⟨text, _ | ⟨text', texts⟩⟩
      · rfl
      · rfl
      · rw [List.length_cons, List.length_cons] at hle
        omega

theorem nodup_arrayVars (hwhole : whole.map Prod.fst = [] ∨ whole.map Prod.fst = [name ++ cstr "[]"])
    (harray : array = true → texts ≠ []) (hsingle : array = false → texts.length ≤ 1) :
    ((arrayVars array whole name texts).map Prod.fst).Nodup := by
  rw [map_fst_arrayVars harray hsingle]
  cases array with
  | false => exact List.nodup_singleton name
  | true =>
      have hends : (whole.map Prod.fst ++ [name, indexName name 0]).Nodup := by
        have hne : name ≠ indexName name 0 := (indexName_ne_name name 0).symm
        rcases hwhole with h | h
        · rw [h]
          simpa using hne
        · rw [h]
          have hne' : name ++ cstr "[]" ∉ [name, indexName name 0] := by
            intro hmem
            rcases List.mem_cons.1 hmem with heq | hmem
            · cases List.append_right_eq_self.1 heq
            · exact indexName_ne_whole name 0 (List.mem_singleton.1 hmem).symm
          apply List.nodup_cons.2 ⟨hne', _⟩
          simpa using hne
      rw [if_pos rfl, List.nodup_append]
      refine ⟨(List.nodup_range').map (indexName_injective name), hends, ?_⟩
      intro x hx y hy
      obtain ⟨k, hk, rfl⟩ := List.mem_map.1 hx
      have hpos := (List.mem_range'_1.1 hk).1
      rcases List.mem_append.1 hy with hy | hy
      · rcases hwhole with h | h
        · rw [h] at hy
          cases hy
        · rw [h, List.mem_singleton] at hy
          rw [hy]
          exact indexName_ne_whole name k
      · rcases List.mem_cons.1 hy with rfl | hy
        · exact indexName_ne_name y k
        · rw [List.mem_singleton.1 hy]
          intro heq
          have hzero := indexName_injective name heq
          omega

theorem arrayVars_names (hwhole : whole.map Prod.fst = [] ∨ whole.map Prod.fst = [name ++ cstr "[]"])
    (harray : array = true → texts ≠ []) (hsingle : array = false → texts.length ≤ 1) :
    ∀ x ∈ (arrayVars array whole name texts).map Prod.fst,
      ∃ part, x = name ++ part ∧ IsIndexPart part := by
  rw [map_fst_arrayVars harray hsingle]
  intro x hx
  cases array with
  | false =>
      rw [if_neg Bool.false_ne_true] at hx
      exact ⟨[], by rw [List.mem_singleton.1 hx, List.append_nil], .inl rfl⟩
  | true =>
      rw [if_pos rfl] at hx
      have hindex : ∀ k, ∃ part, indexName name k = name ++ part ∧ IsIndexPart part :=
        fun k => ⟨_, rfl, .inr rfl⟩
      rcases List.mem_append.1 hx with hx | hx
      · obtain ⟨k, -, rfl⟩ := List.mem_map.1 hx
        exact hindex k
      · rcases List.mem_append.1 hx with hx | hx
        · rcases hwhole with h | h
          · rw [h] at hx
            cases hx
          · rw [h, List.mem_singleton] at hx
            exact ⟨_, hx, .inr rfl⟩
        · rcases List.mem_cons.1 hx with rfl | hx
          · exact ⟨[], (List.append_nil x).symm, .inl rfl⟩
          · rw [List.mem_singleton.1 hx]
            exact hindex 0

end

/-- The variables of an item have different names, which start with its name. -/
theorem Leaf.variables_names (name : Bytes) (v : Leaf) : ((v.variables name).map Prod.fst).Nodup ∧
    ∀ x ∈ (v.variables name).map Prod.fst, ∃ part, x = name ++ part ∧ IsIndexPart part := by
  have hboth : ∀ (array : Bool) (whole : List TmpVariable) (texts : List Bytes),
      whole.map Prod.fst = [] ∨ whole.map Prod.fst = [name ++ cstr "[]"] →
      (array = true → texts ≠ []) → (array = false → texts.length ≤ 1) →
      ((arrayVars array whole name texts).map Prod.fst).Nodup ∧
        ∀ x ∈ (arrayVars array whole name texts).map Prod.fst,
          ∃ part, x = name ++ part ∧ IsIndexPart part :=
    fun _ _ _ hwhole harray hsingle =>
      ⟨nodup_arrayVars hwhole harray hsingle, arrayVars_names hwhole harray hsingle⟩
  cases v with
  | ascii text =>
      refine ⟨List.nodup_singleton name, ?_⟩
      intro x hx
      exact ⟨[], by rw [List.mem_singleton.1 hx, List.append_nil], .inl rfl⟩
  | binary bytes =>
      apply hboth
      · exact .inr rfl
      · intro h hnil
        rw [List.map_eq_nil_iff.1 hnil] at h
        cases h
      · intro h
        rw [List.length_map]
        exact Nat.le_of_not_lt (of_decide_eq_false h)
  | boolean bs =>
      apply hboth
      · exact .inl rfl
      · intro h hnil
        rw [List.map_eq_nil_iff.1 hnil] at h
        cases h
      · intro h
        rw [List.length_map]
        exact Nat.le_of_not_lt (of_decide_eq_false h)
  | integers t vs =>
      apply hboth
      · exact .inl rfl
      · intro h hnil
        rw [List.map_eq_nil_iff.1 hnil] at h
        rw [IntegerType.isArray] at h
        split_ifs at h <;> cases h
      · intro h
        rw [List.length_map]
        rw [IntegerType.isArray] at h
        split_ifs at h
        · exact (Nat.le_of_not_lt (of_decide_eq_false h)).trans (Nat.zero_le 1)
        · exact Nat.le_of_not_lt (of_decide_eq_false h)

/-! ## Paths -/

theorem takeWhile_path (path : List ℕ) {part : Bytes} (hpart : IsIndexPart part) :
    ((path.flatMap fun i => cstr "." ++ decimal i) ++ part).takeWhile (fun c => c ≠ chr '[') =
      path.flatMap fun i => cstr "." ++ decimal i := by
  have hchars : ∀ c ∈ path.flatMap (fun i => cstr "." ++ decimal i),
      decide (c ≠ chr '[') = true := by
    intro c hc
    obtain ⟨i, -, hc⟩ := List.mem_flatMap.1 hc
    rw [decide_eq_true_iff]
    rintro rfl
    rcases List.mem_append.1 hc with hc | hc
    · exact absurd hc (by decide)
    · exact absurd (isDigit_of_mem_decimal hc) (by decide)
  rw [List.takeWhile_append_of_pos hchars]
  cases part with
  | nil => exact List.append_nil _
  | cons c part =>
      have hc : c = chr '[' := by
        rcases hpart with h | h
        · cases h
        · exact Option.some.inj h
      rw [hc, List.takeWhile_cons_of_neg (by decide), List.append_nil]

/-- A variable's name tells the item that it belongs to. -/
theorem path_of_name {varPrefix : Bytes} {path path' : List ℕ} {part part' : Bytes}
    (hpart : IsIndexPart part) (hpart' : IsIndexPart part')
    (h : pathName varPrefix path ++ part = pathName varPrefix path' ++ part') : path = path' := by
  apply pathName_injective varPrefix
  rw [pathName, pathName, List.append_assoc, List.append_assoc] at h
  have htail := congrArg (List.takeWhile fun c => decide (c ≠ chr '[')) (List.append_cancel_left h)
  rw [takeWhile_path path hpart, takeWhile_path path' hpart'] at htail
  rw [pathName, pathName, htail]

theorem Sml.variables_names {f : Sml} {varPrefix : Bytes} {path : List ℕ} {i : ℕ} :
    ∀ x ∈ (f.variables (pathName varPrefix path) i).map Prod.fst, ∃ j rest part,
      x = pathName varPrefix (path ++ j :: rest) ++ part ∧ i ≤ j ∧ IsIndexPart part := by
  induction f generalizing path i with
  | done =>
      intro x hx
      cases hx
  | list kids next ihkids ihnext =>
      intro x hx
      rw [Sml.variables, List.map_append, List.map_cons, ← pathName_concat] at hx
      rcases List.mem_append.1 hx with hx | hx
      · rcases List.mem_cons.1 hx with rfl | hx
        · exact ⟨i, [], [], (List.append_nil _).symm, le_rfl, .inl rfl⟩
        · obtain ⟨j, rest, part, rfl, -, hpart⟩ := ihkids x hx
          refine ⟨i, j :: rest, part, ?_, le_rfl, hpart⟩
          rw [List.append_assoc, List.singleton_append]
      · obtain ⟨j, rest, part, hname, hj, hpart⟩ := ihnext x hx
        exact ⟨j, rest, part, hname, (Nat.le_succ i).trans hj, hpart⟩
  | leaf v next ih =>
      intro x hx
      rw [Sml.variables, List.map_append, ← pathName_concat] at hx
      rcases List.mem_append.1 hx with hx | hx
      · obtain ⟨part, hname, hpart⟩ := (v.variables_names _).2 x hx
        exact ⟨i, [], part, hname, le_rfl, hpart⟩
      · obtain ⟨j, rest, part, hname, hj, hpart⟩ := ih x hx
        exact ⟨j, rest, part, hname, (Nat.le_succ i).trans hj, hpart⟩

/-- No two variables of a message have the same name. -/
theorem Sml.nodup_variables (f : Sml) (varPrefix : Bytes) (path : List ℕ) (i : ℕ) :
    ((f.variables (pathName varPrefix path) i).map Prod.fst).Nodup := by
  induction f generalizing path i with
  | done => exact List.nodup_nil
  | list kids next ihkids ihnext =>
      rw [Sml.variables, List.map_append, List.map_cons, ← pathName_concat]
      refine List.nodup_append.2 ⟨List.nodup_cons.2 ⟨?_, ihkids _ _⟩, ihnext _ _, ?_⟩
      · intro hmem
        obtain ⟨j, rest, part, hname, -, hpart⟩ := Sml.variables_names _ hmem
        have hpath := path_of_name (.inl rfl) hpart ((List.append_nil _).trans hname)
        have hlength := congrArg List.length hpath
        simp at hlength
      · rintro x hx _ hy rfl
        obtain ⟨j, rest, part, hname, hj, hpart⟩ := Sml.variables_names _ hy
        have hown : ∃ rest' part', x = pathName varPrefix (path ++ i :: rest') ++ part' ∧
            IsIndexPart part' := by
          rcases List.mem_cons.1 hx with rfl | hx
          · exact ⟨[], [], (List.append_nil _).symm, .inl rfl⟩
          · obtain ⟨k, rest', part', hname', -, hpart'⟩ := Sml.variables_names _ hx
            rw [List.append_assoc, List.singleton_append] at hname'
            exact ⟨k :: rest', part', hname', hpart'⟩
        obtain ⟨rest', part', hname', hpart'⟩ := hown
        have hpath := path_of_name hpart' hpart (hname'.symm.trans hname)
        have hcons := List.append_cancel_left hpath
        rw [List.cons.injEq] at hcons
        omega
  | leaf v next ih =>
      rw [Sml.variables, List.map_append, ← pathName_concat]
      refine List.nodup_append.2 ⟨(v.variables_names _).1, ih _ _, ?_⟩
      rintro x hx _ hy rfl
      obtain ⟨part', hname', hpart'⟩ := (v.variables_names _).2 x hx
      obtain ⟨j, rest, part, hname, hj, hpart⟩ := Sml.variables_names _ hy
      have hpath := path_of_name hpart' hpart (hname'.symm.trans hname)
      have hcons := List.append_cancel_left hpath
      rw [List.cons.injEq] at hcons
      omega

/-! ## The table -/

section

variable {lib : TmpLibrary} {t : TmpTable}

theorem entries_adds (vars : List (Bytes × Bytes × ℤ)) :
    (vars.foldl (fun t v => tmpVariableAdd lib t v.1 v.2.1 v.2.2) t).entries =
      t.entries ++ vars.map fun v => lib.addEntry v.1 v.2.1 v.2.2 := by
  induction vars generalizing t with
  | nil => exact (List.append_nil _).symm
  | cons v vars ih =>
      rw [List.foldl_cons, ih, List.map_cons]
      exact List.append_assoc _ _ _

/-- In an empty table, variables with different names are found once they are added and sorted, and
no others. -/
theorem get_adds (hnil : t.entries = []) {vars : List TmpVariable}
    (hnodup : (vars.map Prod.fst).Nodup) (behind : ℕ → UInt8) (name value : Bytes) :
    tmpVariableGet lib behind (TmpBuild.run lib t
      (.adds (vars.map fun v => (v.1, v.2, (v.2.length : ℤ))))) name = some value ↔
        (name, value) ∈ vars := by
  have hentry : ∀ v : TmpVariable, lib.addEntry v.1 v.2 v.2.length =
      ⟨v.1, v.2, v.2.length, lib.hash v.1⟩ := by
    intro v
    simp only [TmpLibrary.addEntry, Int.not_lt.2 (Int.natCast_nonneg _), if_false,
      Int.toNat_natCast, List.take_length]
  have hperm : (TmpBuild.run lib t
      (.adds (vars.map fun v => (v.1, v.2, (v.2.length : ℤ))))).entries.Perm
      (vars.map fun v => ⟨v.1, v.2, v.2.length, lib.hash v.1⟩) := by
    refine (lib.sort.perm _ _).trans (List.Perm.of_eq ?_)
    rw [entries_adds, hnil, List.nil_append, List.map_map]
    exact List.map_congr_left fun v _ => hentry v
  have htidy : (TmpBuild.run lib t
      (.adds (vars.map fun v => (v.1, v.2, (v.2.length : ℤ))))).Tidy lib := by
    constructor
    · refine ⟨SortedArray.sorted_arrange tmpNameCmp_eq_compare lib.sort _, fun v hv => ?_⟩
      obtain ⟨u, -, rfl⟩ := List.mem_map.1 (hperm.mem_iff.1 hv)
      rfl
    · have hnames := hperm.map TmpEntry.name
      rw [List.map_map] at hnames
      exact hnames.nodup_iff.2 hnodup
  rw [get_eq_some_iff htidy]
  constructor
  · rintro ⟨e, he, rfl, rfl⟩
    obtain ⟨v, hv, rfl⟩ := List.mem_map.1 (hperm.mem_iff.1 he)
    rw [bytesAt_self]
    exact hv
  · intro hmem
    have hentry' := List.mem_map_of_mem (f := fun v : TmpVariable =>
      (⟨v.1, v.2, v.2.length, lib.hash v.1⟩ : TmpEntry)) hmem
    exact ⟨_, hperm.mem_iff.2 hentry', rfl, bytesAt_self⟩

end

end ScOpen
