import ScOpen.SortedArray
import ScOpen.CTypes

/-!
# The store of the variables

The variables of all programs, their labels and the interpreter's own entries are kept in one
array, sorted by the hash of the full name and, where hashes collide, by the full name. A full name
is composed of the program, the label the interpreter is in and the name. The hash and the C
library's search and sort are parameters.

An operation returns `none` where the program stops (a label defined twice) or where what it does
is undefined: a write through a reference to nothing, a free of the string literal a deleted entry
points to, a read in front of an empty name.
-/

namespace ScOpen

inductive VarTypes where
  | userDefine | userGlobal | userLocal | user | userRef | sc | label
  deriving DecidableEq

def varPrefix : VarTypes → Bytes
  | .sc | .label => cstr "#"
  | _ => []

/-- An entry of the array; `value` holds the `length` bytes the entry counts. -/
structure Variable where
  name : Bytes
  value : Bytes
  type : VarTypes
  hash : ℕ
  deriving DecidableEq

abbrev Store : Type := List Variable

/-- What the store takes from elsewhere: `get_hash()`, `bsearch()` and `qsort()`. -/
structure StoreLibrary where
  hash : Bytes → ℕ
  search : SortedArray.Search
  sort : SortedArray.Arrange Variable

structure Position where
  program : Bytes
  label : Bytes
  deriving DecidableEq

/-- `get_default_program_name()`. -/
def defaultProgram : Bytes := []

def strcmp : Bytes → Bytes → Ordering
  | [], [] => .eq
  | [], _ :: _ => .lt
  | _ :: _, [] => .gt
  | a :: as, b :: bs => if a < b then .lt else if b < a then .gt else strcmp as bs

def nameCmp (i j : Variable) : Ordering :=
  if i.hash < j.hash then .lt else if j.hash < i.hash then .gt else strcmp i.name j.name

def getHash (name : Bytes) : ℕ := name.foldl (fun h b => (b.toNat + 31 * h) % 2 ^ 32) 0

def programKey (type : VarTypes) (program name : Bytes) : Bytes :=
  varPrefix type ++ cstr "(" ++ program ++ cstr ")" ++ name

def labelKey (type : VarTypes) (pos : Position) (name : Bytes) : Bytes :=
  varPrefix type ++ cstr "(" ++ pos.program ++ cstr "." ++ pos.label ++ cstr ")" ++ name

section

variable (lib : StoreLibrary)

/-- The entry that is searched for, and the one that is added. -/
def StoreLibrary.named (name value : Bytes) (type : VarTypes) : Variable :=
  ⟨name, value, type, lib.hash name⟩

def StoreLibrary.bsearch (st : Store) (name : Bytes) : Option ℕ :=
  SortedArray.find lib.search nameCmp (lib.named name [] .user) st

/-! ## `variable_put()` -/

inductive Choice where
  | addIt (name : Bytes)
  | updateIt (idx : ℕ)

def choose (st : Store) (name : Bytes) : Choice :=
  match lib.bsearch st name with
  | some i => .updateIt i
  | none => .addIt name

def whatToDo (st : Store) (pos : Position) (name : Bytes) (type : VarTypes) : Choice :=
  if st = [] then .addIt (programKey type pos.program name)
  else if type = .userGlobal then choose lib st (programKey type defaultProgram name)
  else if type = .userLocal then
    if pos.label ≠ [] then choose lib st (labelKey type pos name)
    else choose lib st (programKey type pos.program name)
  else if pos.label ≠ [] then
    match lib.bsearch st (labelKey type pos name) with
    | some i => .updateIt i
    | none =>
        if type = .userRef then .addIt (labelKey type pos name)
        else choose lib st (programKey type pos.program name)
  else choose lib st (programKey type pos.program name)

/-- The bytes that are put: all up to the terminator when no length is given. -/
def putValue (value : Bytes) (length : ℕ) : Bytes :=
  if length = 0 then cString value else value.take length

/-- Gives an entry another value; the value of a deleted entry cannot be reallocated. -/
def overwrite (st : Store) (i : ℕ) (value : Bytes) : Option Store :=
  match st[i]? with
  | none => none
  | some ret => if ret.name = [] then none else some (st.set i { ret with value := value })

def updateIt (st : Store) (i : ℕ) (value : Bytes) (type : VarTypes) : Option Store :=
  match st[i]? with
  | none => none
  | some ret =>
      if type = .userRef then overwrite st i value
      else if ret.type = .userRef then
        (lib.bsearch st (cString ret.value)).bind fun j => overwrite st j value
      else if ret.type = .userDefine then some st
      else if ret.type = .label then none
      else overwrite st i value

def addIt (st : Store) (name value : Bytes) (type : VarTypes) : Store :=
  SortedArray.insertAt (SortedArray.place nameCmp (lib.named name value type) st)
    (lib.named name value type) st

def variablePut (st : Store) (pos : Position) (name value : Bytes) (length : ℕ)
    (type : VarTypes) : Option Store :=
  match whatToDo lib st pos name type with
  | .addIt full => some (addIt lib st full (putValue value length) type)
  | .updateIt i => updateIt lib st i (putValue value length) type

/-! ## `variable_get()` -/

/-- The entry of a full name, with that name. -/
def lookUp (st : Store) (name : Bytes) : Option (Bytes × Variable) :=
  (lib.bsearch st name).bind fun i => st[i]?.map fun v => (name, v)

/-- The entry of the label, else of the program, else of the default program. -/
def resolve (st : Store) (pos : Position) (name : Bytes) (type : VarTypes) :
    Option (Bytes × Variable) :=
  (if pos.label ≠ [] then lookUp lib st (labelKey type pos name) else none).or
    ((lookUp lib st (programKey type pos.program name)).or
      (lookUp lib st (programKey type defaultProgram name)))

/-- What an entry stands for; a reference is followed once. -/
def valueOf (st : Store) (v : Variable) : Option Bytes :=
  if v.type = .userRef then (lookUp lib st (cString v.value)).map fun found => found.2.value
  else some v.value

def variableGet (st : Store) (pos : Position) (name : Bytes) (type : VarTypes) : Option Bytes :=
  match resolve lib st pos name type with
  | none => none
  | some (full, v) => if type = .userRef then some full else valueOf lib st v

/-! ## `variable_delete()` and `variable_delete_all()` -/

def Variable.blank (v : Variable) : Variable := { v with name := [], value := [], hash := 0 }

/-- Whether `variable_delete()` takes the entry of this full name. -/
def deletes (program name full : Bytes) : Bool :=
  if name.getLast? = some (chr '*') then (program ++ name).dropLast.isPrefixOf full
  else program ++ name = full

/-- The loop of a delete with a `*`; an entry that was deleted before is freed again. -/
def deleteMatching (program name : Bytes) : Store → Option Store
  | [] => some []
  | v :: st =>
      if deletes program name v.name then
        if v.name = [] then none else (deleteMatching program name st).map (v.blank :: ·)
      else (deleteMatching program name st).map (v :: ·)

def variableDelete (st : Store) (program name : Bytes) : Option Store :=
  match name.getLast? with
  | none => none
  | some last =>
      if last = chr '*' then (deleteMatching program name st).map (lib.sort.run nameCmp)
      else
        match lib.bsearch st (program ++ name) with
        | none => some (lib.sort.run nameCmp st)
        | some i => (st[i]?.map fun v => st.set i v.blank).map (lib.sort.run nameCmp)

/-- `variable_delete_all()`; it frees the name of every entry. -/
def variableDeleteAll (st : Store) : Option Store :=
  if ∃ v ∈ st, v.name = [] then none else some []

end

end ScOpen
