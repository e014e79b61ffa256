import ScOpen.MemoryBytes
import ScOpen.VariableOrder

/-!
# The temporary variables

The values of the last message, in one array that `bsearch()` searches. A put inserts a variable at
its place; an add appends it, and the array is sorted when all have been added. The array is
reallocated by both, each in its own way. Memory that nothing was written to is a parameter.
-/

namespace ScOpen

/-- An entry of the array: the bytes allocated for its value, and its length. -/
structure TmpEntry where
  name : Bytes
  value : Bytes
  length : ℕ
  hash : ℕ
  deriving DecidableEq

/-- `variable_root` with `variable_count` entries, the number of entries it has room for, and
`variable_count_max`. -/
structure TmpTable where
  entries : List TmpEntry
  capacity : ℕ
  countMax : ℕ

structure TmpLibrary where
  hash : Bytes → ℕ
  search : SortedArray.Search
  sort : SortedArray.Arrange TmpEntry

abbrev NUM_TMP_VARS : ℕ := 1000

def tmpNameCmp (i j : TmpEntry) : Ordering :=
  if i.hash < j.hash then .lt else if j.hash < i.hash then .gt else strcmp i.name j.name

section

variable (lib : TmpLibrary)

def TmpLibrary.bsearch (entries : List TmpEntry) (name : Bytes) : Option ℕ :=
  SortedArray.find lib.search tmpNameCmp ⟨name, [], 0, lib.hash name⟩ entries

/-- The entry that `tmp_variable_put()` makes: the value is copied up to its first NUL, and
`length` bytes are taken from the copy. -/
def TmpLibrary.putEntry (behind : ℕ → UInt8) (name value : Bytes) (length : ℕ) : TmpEntry :=
  ⟨name, bytesAt behind (cString value ++ [0]) length, length, lib.hash name⟩

def tmpVariablePut (behind : ℕ → UInt8) (t : TmpTable) (name value : Bytes) (length : ℕ) :
    TmpTable :=
  if t.entries = [] then
    { t with entries := [lib.putEntry behind name value length], capacity := 1 }
  else
    match lib.bsearch t.entries name with
    | some i =>
        match t.entries[i]? with
        | none => t
        | some ret =>
            -- the length stays what it was
            { t with entries := t.entries.set i { ret with value := cString value ++ [0] } }
    | none =>
        let tmp := lib.putEntry behind name value length
        { t with
          entries := SortedArray.insertAt (SortedArray.place tmpNameCmp tmp t.entries) tmp t.entries
          capacity := t.entries.length + 1 }

/-- The entry that `tmp_variable_add()` makes; a negative length asks for `strlen()`. -/
def TmpLibrary.addEntry (name value : Bytes) (length : ℤ) : TmpEntry :=
  let localLength := if length < 0 then (cString value).length else length.toNat
  ⟨name, value.take localLength, localLength, lib.hash name⟩

/-- The array of `tmp_variable_add()` before the entry is written. -/
def growTmp (t : TmpTable) : TmpTable :=
  if t.entries = [] then { t with capacity := NUM_TMP_VARS, countMax := NUM_TMP_VARS }
  else if t.countMax ≤ t.entries.length then
    { t with
      capacity := t.entries.length + NUM_TMP_VARS
      countMax := t.countMax + NUM_TMP_VARS }
  else t

def tmpVariableAdd (t : TmpTable) (name value : Bytes) (length : ℤ) : TmpTable :=
  { growTmp t with entries := t.entries ++ [lib.addEntry name value length] }

def tmpVariableSort (t : TmpTable) : TmpTable :=
  { t with entries := lib.sort.run tmpNameCmp t.entries }

/-- `tmp_variable_get()`; `none` when it returns 1. -/
def tmpVariableGet (behind : ℕ → UInt8) (t : TmpTable) (name : Bytes) : Option Bytes :=
  (lib.bsearch t.entries name).bind fun i => t.entries[i]?.map fun b =>
    bytesAt behind b.value b.length

def tmpVariableDeleteAll (t : TmpTable) : TmpTable := { t with entries := [], capacity := 0 }

end

def plainTmpLibrary : TmpLibrary :=
  ⟨getHash, SortedArray.bisection, SortedArray.insertion TmpEntry⟩

def noTmpVariables : TmpTable := ⟨[], 0, 0⟩

def TmpEntry.key (v : TmpEntry) : OrderKey := orderKey v.hash v.name

theorem tmpNameCmp_eq_compare (i j : TmpEntry) : tmpNameCmp i j = compare i.key j.key :=
  ((compare_iff _ _).2 (hash_compares i.hash j.hash i.name j.name)).symm

theorem tmpNameCmp_eq {i j : TmpEntry} :
    tmpNameCmp i j = .eq ↔ i.hash = j.hash ∧ i.name = j.name := by
  rw [tmpNameCmp_eq_compare, compare_eq_iff_eq]
  exact orderKey_inj

theorem tmp_bsearch_some {lib : TmpLibrary} {entries : List TmpEntry} {name : Bytes} {i : ℕ}
    (h : lib.bsearch entries name = some i) :
    ∃ v, entries[i]? = some v ∧ v.hash = lib.hash name ∧ v.name = name := by
  obtain ⟨v, hv, heq⟩ := SortedArray.find_some h
  obtain ⟨hhash, hname⟩ := tmpNameCmp_eq.1 heq
  exact ⟨v, hv, hhash.symm, hname.symm⟩

end ScOpen
