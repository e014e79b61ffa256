import ScOpen.Timers

/-!
# The table of open transactions

A primary message that waits for its reply has an entry here and a running timer. A new message
takes the first entry that is not active, after the entries whose time is over have been cleaned up;
a reply is looked up by its system bytes alone, whether or not the entry is still active.
-/

namespace ScOpen

abbrev MAX_OPEN_TRANS_TABLE : ℕ := 50

structure OpenTrans where
  active : Bool
  programIdx : ℕ
  systemBytes : UInt32
  timerIdx : Fin MAX_TIMERS
  endTime : ℕ

abbrev OpenTransTable : Type := Fin MAX_OPEN_TRANS_TABLE → OpenTrans

def cleanUp (t : ℕ) (table : OpenTransTable) : OpenTransTable := fun i =>
  if (table i).active ∧ (table i).endTime < t then { table i with active := false } else table i

def emptyEntry (table : OpenTransTable) : Option (Fin MAX_OPEN_TRANS_TABLE) :=
  (List.finRange MAX_OPEN_TRANS_TABLE).find? fun i => !(table i).active

/-- `open_trans_table_add()` at clock `t`, with the entry that it takes; it ends the process when
the table is full. -/
def openTransTableAdd (programIdx : ℕ) (systemBytes : UInt32) (timerIdx : Fin MAX_TIMERS)
    (seconds t : ℕ) (table : OpenTransTable) :
    Option (Fin MAX_OPEN_TRANS_TABLE × OpenTransTable) :=
  match emptyEntry (cleanUp t table) with
  | none => none
  | some i => some (i, Function.update (cleanUp t table) i
      ⟨true, programIdx, systemBytes, timerIdx, t + seconds⟩)

def findEntry (systemBytes : UInt32) (table : OpenTransTable) :
    Option (Fin MAX_OPEN_TRANS_TABLE) :=
  (List.finRange MAX_OPEN_TRANS_TABLE).find? fun i => (table i).systemBytes = systemBytes

def closeEntry (i : Fin MAX_OPEN_TRANS_TABLE) (table : OpenTransTable) : OpenTransTable :=
  Function.update table i { table i with active := false }

/-- `open_trans_table_del()` at clock `t`: the program index, when the reply is accepted. -/
def openTransTableDel (systemBytes : UInt32) (t : ℕ) (table : OpenTransTable) (timers : Timers) :
    Option ℕ × OpenTransTable × Timers :=
  match findEntry systemBytes table with
  | none => (none, table, timers)
  | some i =>
      if (table i).endTime < t then (none, table, timers)
      else (some (table i).programIdx, closeEntry i table, stopTimer (table i).timerIdx timers)

/-! ## What the functions do -/

theorem cleanUp_eq (t : ℕ) (table : OpenTransTable) (i : Fin MAX_OPEN_TRANS_TABLE) :
    cleanUp t table i = { table i with active := (cleanUp t table i).active } := by
  unfold cleanUp
  split <;> rfl

theorem cleanUp_active {t : ℕ} {table : OpenTransTable} {i : Fin MAX_OPEN_TRANS_TABLE} :
    (cleanUp t table i).active = true ↔ (table i).active = true ∧ t ≤ (table i).endTime := by
  unfold cleanUp
  split
  · rename_i h
    simp only [Bool.false_eq_true, false_iff, not_and, not_le]
    exact fun _ => h.2
  · rename_i h
    constructor
    · intro hactive
      exact ⟨hactive, Nat.le_of_not_lt fun hlt => h ⟨hactive, hlt⟩⟩
    · exact And.left

theorem openTransTableAdd_entry {programIdx seconds t : ℕ} {systemBytes : UInt32}
    {timerIdx : Fin MAX_TIMERS} {table table' : OpenTransTable} {i : Fin MAX_OPEN_TRANS_TABLE}
    (h : openTransTableAdd programIdx systemBytes timerIdx seconds t table = some (i, table')) :
    table' = Function.update (cleanUp t table) i
      ⟨true, programIdx, systemBytes, timerIdx, t + seconds⟩ := by
  unfold openTransTableAdd at h
  split at h
  · cases h
  · obtain ⟨rfl, rfl⟩ := Prod.mk.inj (Option.some.inj h)
    rfl

@[simp]
theorem closeEntry_self (i : Fin MAX_OPEN_TRANS_TABLE) (table : OpenTransTable) :
    closeEntry i table i = { table i with active := false } := Function.update_self ..

theorem closeEntry_ne {i j : Fin MAX_OPEN_TRANS_TABLE} (h : j ≠ i) (table : OpenTransTable) :
    closeEntry i table j = table j := Function.update_of_ne h ..

theorem findEntry_systemBytes {systemBytes : UInt32} {table : OpenTransTable}
    {i : Fin MAX_OPEN_TRANS_TABLE} (h : findEntry systemBytes table = some i) :
    (table i).systemBytes = systemBytes := by
  simpa using List.find?_some h

/-- A reply is accepted, or nothing changes. -/
theorem openTransTableDel_cases (systemBytes : UInt32) (t : ℕ) (table : OpenTransTable)
    (timers : Timers) :
    (∃ i, findEntry systemBytes table = some i ∧ t ≤ (table i).endTime ∧
      openTransTableDel systemBytes t table timers =
        (some (table i).programIdx, closeEntry i table, stopTimer (table i).timerIdx timers)) ∨
      (∀ i, findEntry systemBytes table = some i → (table i).endTime < t) ∧
        openTransTableDel systemBytes t table timers = (none, table, timers) := by
  unfold openTransTableDel
  cases hfind : findEntry systemBytes table with
  | none => exact .inr ⟨by simp, rfl⟩
  | some i =>
      by_cases hlate : (table i).endTime < t
      · right
        refine ⟨?_, if_pos hlate⟩
        intro j hj
        rw [← Option.some.inj hj]
        exact hlate
      · exact .inl ⟨i, rfl, Nat.le_of_not_lt hlate, if_neg hlate⟩

end ScOpen
