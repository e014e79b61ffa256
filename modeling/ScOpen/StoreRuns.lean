import ScOpen.VariableDelete

/-!
# Runs of the store

In every run of puts and deletes the array stays sorted by hash and full name, and the binary search
finds exactly the full names that were added and not removed since, whatever the hash. But an entry
that was deleted has the literal `""` for its name, and a later delete of all variables frees it.
-/

namespace ScOpen

/-- A call of `variable_put()`, `variable_delete()` or `variable_delete_all()`. -/
inductive StoreOp where
  | put (pos : Position) (name value : Bytes) (length : ℕ) (type : VarTypes)
  | delete (program name : Bytes)
  | deleteAll

def StoreOp.run (lib : StoreLibrary) (st : Store) : StoreOp → Option Store
  | .put pos name value length type => variablePut lib st pos name value length type
  | .delete program name => variableDelete lib st program name
  | .deleteAll => variableDeleteAll st

/-- The store with the full names that were added and have not been removed since. -/
structure Tracked where
  store : Store
  present : List Bytes

/-- The names after a call: a put adds the name it makes an entry for, a delete removes those it
matches. -/
def StoreOp.track (lib : StoreLibrary) (s : Tracked) : StoreOp → List Bytes
  | .put pos name _ _ type =>
      match whatToDo lib s.store pos name type with
      | .addIt full => full :: s.present
      | .updateIt _ => s.present
  | .delete program name => s.present.filter fun full => !deletes program name full
  | .deleteAll => []

def Tracked.step (lib : StoreLibrary) (s : Tracked) (op : StoreOp) : Option Tracked :=
  (op.run lib s.store).map fun st => ⟨st, op.track lib s⟩

def Tracked.Starts (s : Tracked) : Prop := s = ⟨[], []⟩

abbrev Tracked.Reached (lib : StoreLibrary) : Tracked → Prop :=
  Runs.Reaches (Tracked.step lib) (fun _ _ => True) Tracked.Starts

structure Tracked.Right (lib : StoreLibrary) (s : Tracked) : Prop where
  ordered : Ordered lib s.store
  present : ∀ n, (entry s.store n).isSome ↔ n ∈ s.present

section

variable {lib : StoreLibrary}

theorem StoreOp.ordered {op : StoreOp} {st st' : Store} (hst : Ordered lib st)
    (h : op.run lib st = some st') : Ordered lib st' := by
  cases op with
  | put pos name value length type =>
      rcases variablePut_spec hst pos name value length type with
        ⟨-, hput⟩ | ⟨n, v, st₁, -, hput, hwrites⟩
      · rw [StoreOp.run, hput] at h
        cases h
      · rw [StoreOp.run, hput] at h
        cases h
        exact hwrites.1
  | delete program name => exact (variableDelete_spec hst h).1
  | deleteAll =>
      rw [StoreOp.run, variableDeleteAll] at h
      split_ifs at h
      cases h
      exact ordered_nil

/-- The full name of the entry that a put writes was there before, or the put has added it. -/
theorem putEntry_added {st : Store} {n m value : Bytes} {type : VarTypes} {v : Variable}
    (hst : Ordered lib st) (hn : n ≠ []) (h : putEntry lib st n value type = some (m, v)) :
    (choose lib st n = .addIt n ∧ m = n) ∨
      ∃ i, choose lib st n = .updateIt i ∧ (entry st m).isSome := by
  cases he : entry st n with
  | none =>
      rw [putEntry_new he] at h
      cases h
      exact .inl ⟨choose_none hst hn he, rfl⟩
  | some u =>
      obtain ⟨i, -, hi⟩ := choose_some hst he
      refine .inr ⟨i, hi, ?_⟩
      rw [putEntry_old he] at h
      split_ifs at h
      · cases h
        rw [he]
        rfl
      · obtain ⟨w, hw, heq⟩ := Option.map_eq_some_iff.1 h
        cases heq
        rw [hw]
        rfl
      · cases h
        rw [he]
        rfl
      · cases h
        rw [he]
        rfl

theorem Tracked.Right.step {s s' : Tracked} {op : StoreOp} (hs : s.Right lib)
    (hstep : s.step lib op = some s') : s'.Right lib := by
  obtain ⟨hst, hpresent⟩ := hs
  obtain ⟨st', hrun, rfl⟩ := Option.map_eq_some_iff.1 hstep
  refine ⟨StoreOp.ordered hst hrun, fun n => ?_⟩
  cases op with
  | put pos name value length type =>
      rcases variablePut_spec hst pos name value length type with
        ⟨-, hput⟩ | ⟨m, v, st₁, hentry, hput, -, hwrites⟩
      · rw [StoreOp.run, hput] at hrun
        cases hrun
      · rw [StoreOp.run, hput] at hrun
        cases hrun
        have hsome : (entry st' n).isSome ↔ n = m ∨ (entry s.store n).isSome := by
          rw [hwrites]
          by_cases hm : n = m
          · rw [if_pos hm]
            exact iff_of_true rfl (.inl hm)
          · rw [if_neg hm]
            exact (or_iff_right hm).symm
        change _ ↔ n ∈ (match whatToDo lib s.store pos name type with
          | .addIt full => full :: s.present
          | .updateIt _ => s.present)
        rw [hsome, whatToDo_eq hst, hpresent]
        rcases putEntry_added hst (putName_ne_nil _ _ _ _) hentry with
          ⟨hadd, rfl⟩ | ⟨i, hupdate, hm⟩
        · rw [hadd]
          exact List.mem_cons.symm
        · rw [hupdate]
          refine or_iff_right_of_imp fun heq => ?_
          rw [heq]
          exact (hpresent m).1 hm
  | delete program name =>
      rw [(variableDelete_spec hst hrun).2]
      change _ ↔ n ∈ s.present.filter fun full => !deletes program name full
      rw [List.mem_filter, ← hpresent]
      cases deletes program name n with
      | true => exact iff_of_false Bool.false_ne_true fun h => Bool.false_ne_true h.2
      | false => exact (and_iff_left rfl).symm
  | deleteAll =>
      rw [StoreOp.run, variableDeleteAll] at hrun
      split_ifs at hrun
      cases hrun
      exact iff_of_false Bool.false_ne_true List.not_mem_nil

theorem Tracked.Reached.right {s : Tracked} (h : s.Reached lib) : s.Right lib := by
  refine h.invariant ?_ ?_
  · rintro s rfl
    exact ⟨ordered_nil, fun n => iff_of_false Bool.false_ne_true List.not_mem_nil⟩
  · exact fun s op s' hs _ hstep => hs.step hstep

end

/-! ## Runs in which a call may crash -/

/-- The array is sorted with one live entry for a full name, and the binary search finds a full name
exactly when it was added and has not been removed since. -/
def Tracked.SearchExact (lib : StoreLibrary) (s : Tracked) : Prop :=
  s.store.Pairwise (fun i j => nameCmp i j ≠ .gt) ∧
    s.store.Pairwise (fun i j => i.name = j.name → i.name = []) ∧
    ∀ n, n ≠ [] → ((lib.bsearch s.store n).isSome ↔ n ∈ s.present) ∧
      ∀ i, lib.bsearch s.store n = some i → ∃ v, s.store[i]? = some v ∧ v.name = n

/-- The process goes on with a store, it was ended with a message, or it has crashed. -/
inductive StoreState where
  | live (s : Tracked)
  | ended
  | crashed

/-- The put of a label that is there already ends the process. -/
def StoreOp.duplicate (st : Store) : StoreOp → Bool
  | .put pos name _ _ type => type ≠ .userRef ∧
      (entry st (putName st pos name type)).any fun v => v.type = .label
  | _ => false

def StoreState.call (lib : StoreLibrary) : StoreState → StoreOp → Option StoreState
  | .live s, op =>
      match s.step lib op with
      | some s => some (.live s)
      | none => some (if op.duplicate s.store then .ended else .crashed)
  | _, _ => none

def StoreState.Starts (s : StoreState) : Prop := s = .live ⟨[], []⟩

/-- No call has crashed, and the store is what it should be. -/
def StoreState.Exact (lib : StoreLibrary) : StoreState → Prop
  | .live s => s.SearchExact lib
  | .ended => True
  | .crashed => False

section

variable {lib : StoreLibrary}

theorem Tracked.Right.searchExact {s : Tracked} (h : s.Right lib) : s.SearchExact lib := by
  obtain ⟨hst, hpresent⟩ := h
  refine ⟨?_, List.pairwise_map.1 hst.distinct, ?_⟩
  · refine hst.sorted.imp fun {a b} hab => ?_
    rw [nameCmp_eq_compare]
    exact compare_le_iff_le.2 hab
  · intro n hn
    refine ⟨?_, fun i hi => bsearch_some hi⟩
    rw [hst.bsearch_isSome hn]
    exact hpresent n

def StoreState.Right (lib : StoreLibrary) (s : StoreState) : Prop :=
  s = .ended ∨ ∃ t, s = .live t ∧ t.Right lib

theorem StoreState.Right.exact {s : StoreState} (h : s.Right lib) : s.Exact lib := by
  obtain rfl | ⟨t, rfl, ht⟩ := h
  · trivial
  · exact ht.searchExact

end

def plainLibrary : StoreLibrary :=
  ⟨getHash, SortedArray.bisection, SortedArray.insertion Variable⟩

def topLevel : Position := ⟨defaultProgram, []⟩

end ScOpen
