import ScOpen.ReferenceChains
import ScOpen.TmpValues
import Mathlib.Data.Fintype.EquivFin

/-!
# Variables by reference

One gosub passes a reference that reads and assigns the variable, when it arrives and the parameter
has no entry of another kind. Two nested ones never do.
-/

namespace ScOpen

def assignAll (lib : StoreLibrary) (pos : Position) (name : Bytes) (st : Store)
    (vs : List Bytes) : Option Store :=
  vs.foldlM (fun st v => variablePut lib st pos name v v.length .user) st

/-- Whatever the variable `o` holds, the innermost parameter reads it, and what is assigned to the
parameter is what both hold afterwards and all that has changed; a `return` changes no variable. -/
def ReferenceRight (m : QueueMemory) (lib : StoreLibrary) (st : Store) (pos : Position)
    (name : Bytes) (o : Variable) (calls : List RefCall) : Prop :=
  ∀ w st₀, Writes lib st st₀ o.name { o with value := w } →
    ∃ st₁ callee param, enterCalls m lib st₀ pos name calls = some (st₁, callee, param) ∧
      variableGet lib st₁ callee param .user = some w ∧
      ∀ vs v, ∃ st₂, assignAll lib callee param st₁ (vs ++ [v]) = some st₂ ∧
        variableGet lib st₂ callee param .user = some v ∧
        ∀ n, entry st₂ n = if n = o.name then some { o with value := v } else entry st₁ n

/-- One gosub, whose parameter has no entry or a reference, and whose return index has no label in
its place. -/
def OneLevel (st : Store) (pos : Position) (calls : List RefCall) : Prop :=
  ∃ c, calls = [c] ∧ (∀ v, entry st c.key = some v → v.type = .userRef) ∧
    ∀ v, entry st (putName st pos (cstr "RETURN." ++ c.nest) .sc) = some v → v.type ≠ .label

section

variable {lib : StoreLibrary} {st st₀ : Store} {pos : Position} {name w : Bytes} {o : Variable}

/-! ## What the queue gives back -/

theorem passed_narrow {m : QueueMemory} (hm : m.sizeofType = 1) {full : Bytes}
    (hfits : full.length < 2 ^ 32) : m.passed full = full := by
  have hstack : (m.queue 0 ⟨TT_IDENTIFIER, full⟩).drop 0 = m.queue 0 ⟨TT_IDENTIFIER, full⟩ ++ [] :=
    (List.append_nil _).symm
  exact congrArg Argument.value (dequeue_queue hm hfits hstack).1

/-- Behind the last bytes of the length come those of the name. -/
theorem passed_getElem? (m : QueueMemory) (full : Bytes) {i : ℕ} (hi : i < (m.passed full).length)
    (hm : m.sizeofType ≤ i + 1) :
    (m.passed full)[i]? = some (full[i + 1 - m.sizeofType]?.getD (m.behind (5 + i))) := by
  have hpassed : m.passed full = bytesAt (fun i => m.behind (5 + i))
      ((m.queue 0 ⟨TT_IDENTIFIER, full⟩).drop 5)
      (leValue (m.read (m.queue 0 ⟨TT_IDENTIFIER, full⟩) 1 4)) := rfl
  have hqueue : m.queue 0 ⟨TT_IDENTIFIER, full⟩ =
      bytesAt (m.beside 0) [TT_IDENTIFIER] m.sizeofType ++ (leBytes 4 full.length ++ full) := rfl
  rw [hpassed, bytesAt_length] at hi
  have htype := bytesAt_length (m.beside 0) [TT_IDENTIFIER] m.sizeofType
  have hsize := length_leBytes 4 full.length
  have hindex : 5 + i - (bytesAt (m.beside 0) [TT_IDENTIFIER] m.sizeofType).length -
      (leBytes 4 full.length).length = i + 1 - m.sizeofType := by omega
  rw [hpassed, bytesAt_getElem? _ _ hi, List.getElem?_drop, hqueue,
    List.getElem?_append_right (by omega), List.getElem?_append_right (by omega), hindex]

/-- With a wider type there is memory in which a name does not come back as a given one. -/
theorem passed_wide {k : ℕ} (hk : 2 ≤ k) (hk4 : k ≤ 4) {full target : Bytes} (hfull : 0 ∉ full)
    (htarget : 3 ≤ target.length) :
    ∃ m : QueueMemory, m.sizeofType = k ∧ cString (m.passed full) ≠ target := by
  obtain ⟨b, hb⟩ := exists_other_length target.length
  let m : QueueMemory := ⟨k, fun _ _ => b, fun _ => 1⟩
  refine ⟨m, rfl, fun heq => ?_⟩
  have hlow := dequeue_wide (m := m) hk ⟨TT_IDENTIFIER, full⟩ []
  rw [List.append_nil] at hlow
  change (m.passed full).length % 256 = b.toNat at hlow
  by_cases hzero : 0 ∈ m.passed full
  · -- the text ends at a NUL where only bytes of the name are
    obtain ⟨r, hr⟩ := cString_append_zero hzero
    rw [heq] at hr
    have hlt : target.length < (m.passed full).length := by
      rw [hr, List.length_append, List.length_cons]
      omega
    have hat : (m.passed full)[target.length]? = some 0 := by
      rw [hr, List.getElem?_append_right le_rfl, Nat.sub_self]
      rfl
    have hwidth : m.sizeofType ≤ target.length + 1 := by
      change k ≤ _
      omega
    rw [passed_getElem? m full hlt hwidth] at hat
    cases hget : full[target.length + 1 - m.sizeofType]? with
    | none =>
        rw [hget] at hat
        cases hat
    | some c =>
        rw [hget] at hat
        cases hat
        exact hfull (List.mem_of_getElem? hget)
  · rw [cString_eq_self hzero] at heq
    rw [heq] at hlow
    exact hb hlow.symm

/-! ## The variable with another value -/

theorem entry_writes {n : Bytes} {u v : Variable} (hwrites : Writes lib st st₀ n v)
    (hu : entry st n = some u) (x : Bytes) :
    entry st₀ x = (entry st x).map fun y => if y.name = n then v else y := by
  rw [hwrites.2]
  by_cases hx : x = n
  · rw [if_pos hx, hx, hu, Option.map_some, if_pos (entry_mem hu).2.1]
  · rw [if_neg hx]
    cases he : entry st x with
    | none => rfl
    | some y =>
        rw [Option.map_some, if_neg]
        rw [(entry_mem he).2.1]
        exact hx

theorem resolve_writes {n : Bytes} {u v : Variable} (hwrites : Writes lib st st₀ n v)
    (hu : entry st n = some u) (type : VarTypes) :
    resolveEntry st₀ pos name type =
      (resolveEntry st pos name type).map fun y => if y.name = n then v else y := by
  unfold resolveEntry
  rw [entry_writes hwrites hu, entry_writes hwrites hu, entry_writes hwrites hu, Option.map_or,
    Option.map_or]
  split_ifs <;> rfl

/-- What a name is resolved to has the name in its full name. -/
theorem resolve_entry {type : VarTypes} (h : resolveEntry st pos name type = some o) :
    entry st o.name = some o ∧
      (o.name = labelKey type pos name ∨ ∃ program, o.name = programKey type program name) := by
  have hname : ∀ {n}, entry st n = some o → entry st o.name = some o ∧ o.name = n := by
    intro n hn
    have heq := (entry_mem hn).2.1
    exact ⟨by rw [heq, hn], heq⟩
  unfold resolveEntry at h
  rcases Option.or_eq_some_iff.1 h with hlabel | ⟨-, hrest⟩
  · split_ifs at hlabel
    exact ⟨(hname hlabel).1, .inl (hname hlabel).2⟩
  · rcases Option.or_eq_some_iff.1 hrest with hprogram | ⟨-, hdefault⟩
    · exact ⟨(hname hprogram).1, .inr ⟨_, (hname hprogram).2⟩⟩
    · exact ⟨(hname hdefault).1, .inr ⟨_, (hname hdefault).2⟩⟩

theorem resolve_head {type : VarTypes} (h : resolveEntry st pos name type = some o) :
    o.name.head? = some type.sign := by
  rcases (resolve_entry h).2 with heq | ⟨program, heq⟩
  · rw [heq]
    exact labelKey_head _ _ _
  · rw [heq]
    exact programKey_head _ _ _

/-- A full name is longer than its parentheses and the name. -/
theorem resolve_length {type : VarTypes} (h : resolveEntry st pos name type = some o)
    (hname : name ≠ []) : 3 ≤ o.name.length := by
  have hpos := List.length_pos_of_ne_nil hname
  rcases (resolve_entry h).2 with heq | ⟨program, heq⟩
  · rw [heq, labelKey]
    simp only [List.length_append, cstr, List.length_map, String.length_toList]
    have hopen : "(".length = 1 := rfl
    have hclose : ")".length = 1 := rfl
    omega
  · rw [heq, programKey]
    simp only [List.length_append, cstr, List.length_map, String.length_toList]
    have hopen : "(".length = 1 := rfl
    have hclose : ")".length = 1 := rfl
    omega

/-- A reference to the variable is its full name, whatever it holds. -/
theorem get_reference (ho : resolveEntry st pos name .userRef = some o)
    (hwrites : Writes lib st st₀ o.name { o with value := w }) :
    variableGet lib st₀ pos name .userRef = some o.name := by
  have hresolve : resolveEntry st₀ pos name .userRef = _ :=
    resolve_writes hwrites (resolve_entry ho).1 .userRef
  rw [ho, Option.map_some, if_pos rfl] at hresolve
  rw [variableGet_some hwrites.1 hresolve, if_pos rfl]

/-! ## The return index -/

/-- An entry that the interpreter keeps for itself is none of a variable. -/
theorem internal_of_head (hst : Ordered lib st) {n : Bytes} {v : Variable} {type : VarTypes}
    (hn : n.head? = some type.sign) (htype : type.Internal) (h : entry st n = some v) :
    v.type.Internal := by
  obtain ⟨hmem, rfl, hne⟩ := entry_mem h
  have hsign := hst.signed v hmem hne
  rw [hn] at hsign
  by_contra hother
  rw [VarTypes.sign, if_pos htype, VarTypes.sign, if_neg hother] at hsign
  revert hsign
  decide

/-- The return index is put unless a label is in its place. -/
theorem put_return (hst : Ordered lib st) (pos : Position) (name value : Bytes) :
    ((∃ v, entry st (putName st pos name .sc) = some v ∧ v.type = .label) ∧
      variablePut lib st pos name value 0 .sc = none) ∨
    ((∀ v, entry st (putName st pos name .sc) = some v → v.type ≠ .label) ∧
      ∃ st₁ v, variablePut lib st pos name value 0 .sc = some st₁ ∧
        Writes lib st st₁ (putName st pos name .sc) v) := by
  rcases variablePut_spec hst pos name value 0 .sc with
    ⟨hnone, hput⟩ | ⟨n, u, st₁, hsome, hput, hwrites⟩
  · left
    cases he : entry st (putName st pos name .sc) with
    | none =>
        rw [putEntry_new he] at hnone
        cases hnone
    | some v =>
        refine ⟨⟨v, rfl, ?_⟩, hput⟩
        rcases internal_of_head hst (putName_head st pos name .sc) (.inl rfl) he with hsc | hlabel
        · rw [putEntry_old he, hsc] at hnone
          cases hnone
        · exact hlabel
  · right
    cases he : entry st (putName st pos name .sc) with
    | none =>
        rw [putEntry_new he] at hsome
        cases hsome
        exact ⟨fun v hv => (by cases hv), st₁, _, hput, hwrites⟩
    | some v =>
        rcases internal_of_head hst (putName_head st pos name .sc) (.inl rfl) he with hsc | hlabel
        · rw [putEntry_old he, hsc] at hsome
          cases hsome
          refine ⟨fun x hx => ?_, st₁, _, hput, hwrites⟩
          cases hx
          rw [hsc]
          decide
        · rw [putEntry_old he, hlabel] at hsome
          cases hsome

end

end ScOpen
