import ScOpen.GosubDelivery

/-!
# Passing a reference on

A gosub with one argument, a variable by reference, puts the return index and the parameter. The
parameter gets the full name that the queue gives for that of the variable, and what the variable is
resolved to in a label is the entry of its parameter.
-/

namespace ScOpen

structure RefCall where
  callee : Position
  param : Bytes
  nest : Bytes
  idx : Bytes
  in_label : callee.label ≠ []

def RefCall.key (c : RefCall) : Bytes := labelKey .userRef c.callee c.param

/-- The text that the queue gives back for a full name. -/
def QueueMemory.passed (m : QueueMemory) (full : Bytes) : Bytes :=
  (m.dequeue (m.queue 0 ⟨TT_IDENTIFIER, full⟩) 0).value

def RefCall.enter (m : QueueMemory) (lib : StoreLibrary) (st : Store) (pos : Position)
    (name : Bytes) (c : RefCall) : Option Store :=
  (gosubVariables m lib st pos c.callee c.nest c.idx 0 [(TT_IDENTIFIER, name)]
    [(TT_IDENTIFIER, c.param)]).map Prod.snd

/-- Nested gosubs, each of which passes on the parameter of the one before; the store, where the
innermost subroutine is, and its parameter. -/
def enterCalls (m : QueueMemory) (lib : StoreLibrary) :
    Store → Position → Bytes → List RefCall → Option (Store × Position × Bytes)
  | st, pos, name, [] => some (st, pos, name)
  | st, pos, name, c :: calls =>
      (c.enter m lib st pos name).bind fun st => enterCalls m lib st c.callee c.param calls

section

variable {m : QueueMemory} {lib : StoreLibrary} {st : Store} {pos : Position} {name full : Bytes}

theorem dequeue_type (hm : 0 < m.sizeofType) (a : Argument) (rest : Bytes) :
    (m.dequeue (m.queue 0 a ++ rest) 0).type = a.type := by
  obtain ⟨bs, hbs⟩ := read_head (m := m) (m.queue 0 a ++ rest) 0 0
  have hlt : 0 < (bytesAt (m.beside 0) [a.type] m.sizeofType).length := by
    rw [bytesAt_length]
    exact hm
  have hbyte : (m.queue 0 a ++ rest)[0]? = some a.type := by
    rw [QueueMemory.queue, List.append_assoc, List.getElem?_append_left hlt,
      bytesAt_getElem? _ _ hm]
    rfl
  rw [QueueMemory.dequeue, hbs, hbyte]
  rfl

/-- The parameter that one argument by reference is put into. -/
theorem passArguments_reference (hget : variableGet lib st pos name .userRef = some full)
    (param : Bytes) :
    (passArguments m lib st pos 0 [(TT_IDENTIFIER, name)] [(TT_IDENTIFIER, param)]).taken =
      [(param, m.dequeue (m.queue 0 ⟨TT_IDENTIFIER, full⟩) 0)] := by
  have hargs : gosubArgs lib st pos [(TT_IDENTIFIER, name)] = [⟨TT_IDENTIFIER, full⟩] := by
    rw [gosubArgs, if_neg (by decide), if_pos rfl, hget]
    rfl
  obtain ⟨iret, hpass⟩ := passArguments_eq (m := m) lib st pos 0 [(TT_IDENTIFIER, name)]
    [(TT_IDENTIFIER, param)]
  have hqueue : m.queueAll 0 [⟨TT_IDENTIFIER, full⟩] = m.queue 0 ⟨TT_IDENTIFIER, full⟩ :=
    List.append_nil _
  rw [hpass, hargs, hqueue, takeArguments, if_neg (by decide), if_pos rfl, List.length_singleton]
  exact congrArg Taken.taken (if_neg Nat.one_ne_zero)

theorem enter_eq (hm : 0 < m.sizeofType) (hget : variableGet lib st pos name .userRef = some full)
    (c : RefCall) :
    c.enter m lib st pos name =
      (variablePut lib st pos (cstr "RETURN." ++ c.nest) c.idx 0 .sc).bind fun st =>
        variablePut lib st c.callee c.param (m.passed full) (m.passed full).length .userRef := by
  have htype := dequeue_type hm ⟨TT_IDENTIFIER, full⟩ []
  rw [List.append_nil] at htype
  rw [RefCall.enter, gosubVariables, passArguments_reference hget]
  cases variablePut lib st pos (cstr "RETURN." ++ c.nest) c.idx 0 .sc with
  | none => rfl
  | some st₁ =>
      simp only [Option.bind_eq_bind, Option.bind_some, List.foldlM_cons, List.foldlM_nil,
        putArgument, htype, if_pos, QueueMemory.passed]
      cases variablePut lib st₁ c.callee c.param
        (m.dequeue (m.queue 0 ⟨TT_IDENTIFIER, full⟩) 0).value
        (m.dequeue (m.queue 0 ⟨TT_IDENTIFIER, full⟩) 0).value.length .userRef <;> rfl

/-! ## The store after a gosub -/

/-- No put brings a value into the store but its own. -/
theorem variablePut_mem {st' : Store} {value : Bytes} {length : ℕ} {type : VarTypes}
    (h : variablePut lib st pos name value length type = some st') {u : Variable} (hu : u ∈ st') :
    u ∈ st ∨ u.value = putValue value length := by
  have hoverwrite : ∀ {i}, overwrite st i (putValue value length) = some st' →
      u ∈ st ∨ u.value = putValue value length := by
    intro i h
    rw [overwrite] at h
    cases hi : st[i]? with
    | none =>
        rw [hi] at h
        cases h
    | some v =>
        rw [hi] at h
        obtain ⟨-, heq⟩ := Option.ite_none_left_eq_some.1 h
        cases heq
        rcases List.mem_or_eq_of_mem_set hu with hold | rfl
        · exact .inl hold
        · exact .inr rfl
  rw [variablePut] at h
  cases hdo : whatToDo lib st pos name type with
  | addIt n =>
      rw [hdo] at h
      cases h
      rcases List.mem_cons.1 ((SortedArray.perm_insertAt _ _ _).mem_iff.1 hu) with rfl | hold
      · exact .inr rfl
      · exact .inl hold
  | updateIt i =>
      rw [hdo] at h
      change updateIt lib st i (putValue value length) type = some st' at h
      rw [updateIt] at h
      cases hi : st[i]? with
      | none =>
          rw [hi] at h
          cases h
      | some v =>
          rw [hi] at h
          change (if type = .userRef then _ else _) = _ at h
          split_ifs at h
          · exact hoverwrite h
          · obtain ⟨j, -, hj⟩ := Option.bind_eq_some_iff.1 h
            exact hoverwrite hj
          · cases h
            exact .inl hu
          · exact hoverwrite h

def paramEntry (lib : StoreLibrary) (st : Store) (n value : Bytes) : Variable :=
  match entry st n with
  | none => lib.named n value .userRef
  | some v => { v with value := value }

theorem put_param (hst : Ordered lib st) (hne : st ≠ []) (c : RefCall) (value : Bytes) :
    ∃ st', variablePut lib st c.callee c.param value value.length .userRef = some st' ∧
      Writes lib st st' c.key (paramEntry lib st c.key value) := by
  have hname : putName st c.callee c.param .userRef = c.key := by
    rw [putName, if_neg hne, if_neg (by decide), if_neg c.in_label, if_pos (.inr (.inl rfl))]
    rfl
  have hput : putEntry lib st c.key value .userRef =
      some (c.key, paramEntry lib st c.key value) := by
    rw [paramEntry]
    cases he : entry st c.key with
    | none => exact putEntry_new he _ _
    | some v => exact (putEntry_old he _ _).trans (if_pos rfl)
  rcases variablePut_spec hst c.callee c.param value value.length .userRef with
    ⟨hnone, -⟩ | ⟨n, v, st', hsome, hrun, hwrites⟩
  · rw [hname, putValue_length, hput] at hnone
    cases hnone
  · rw [hname, putValue_length, hput] at hsome
    cases hsome
    exact ⟨st', hrun, hwrites⟩

theorem paramEntry_value (n value : Bytes) : (paramEntry lib st n value).value = value := by
  rw [paramEntry]
  cases entry st n <;> rfl

theorem paramEntry_name (n value : Bytes) :
    (paramEntry lib st n value).name = n := by
  rw [paramEntry]
  cases he : entry st n with
  | none => rfl
  | some v => exact (entry_mem he).2.1

/-- In its label a parameter is resolved to its own entry. -/
theorem resolve_param {c : RefCall} {v : Variable} {type : VarTypes} (htype : varPrefix type = [])
    (h : entry st c.key = some v) : resolveEntry st c.callee c.param type = some v := by
  have hkey : labelKey type c.callee c.param = c.key := by
    rw [labelKey, htype]
    rfl
  rw [resolveEntry, if_pos c.in_label, hkey, h]
  rfl

end

end ScOpen
