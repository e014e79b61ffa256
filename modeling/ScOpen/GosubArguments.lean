import ScOpen.MemoryBytes
import ScOpen.TokenCodes
import ScOpen.VariableStore

/-!
# The arguments of a gosub

A gosub puts its arguments into a queue, each as a type, a length and the data, and takes them from
there for the parameters of the label. The type is queued with the width of the enumeration, from a
variable of one byte, and taken as one byte.
-/

namespace ScOpen

/-- `sizeof(enum token_types)`, the bytes that lie behind the variable of `ubyte_type()` when an
argument is queued, and those that lie behind the queue. -/
structure QueueMemory where
  sizeofType : ℕ
  beside : ℕ → ℕ → UInt8
  behind : ℕ → UInt8

/-- The width of an enumeration. -/
abbrev sizeofTokenTypes : ℕ := 4

/-- An argument: its type, and its text or, by reference, its full name. -/
structure Argument where
  type : UInt8
  value : Bytes

/-- What the loop over the gosub line has done: `iret`, the bytes of `stack`, and the arguments that
they stand for, which `arg_cnt` counts. -/
structure Queued where
  iret : ℕ
  stack : Bytes
  args : List Argument

/-- What the loop over the label's line has done: `iret`, `arg_cnt`, `ptr`, and the parameters with
what was taken for each. -/
structure Taken where
  iret : ℕ
  argCnt : ℕ
  ptr : ℕ
  taken : List (Bytes × Argument)

section

variable (m : QueueMemory)

/-- What is appended to the queue for an argument, the `k`-th one. -/
def QueueMemory.queue (k : ℕ) (a : Argument) : Bytes :=
  bytesAt (m.beside k) [a.type] m.sizeofType ++ (leBytes 4 a.value.length ++ a.value)

def Queued.push (q : Queued) (iret : ℕ) (a : Argument) : Queued :=
  ⟨iret, q.stack ++ m.queue q.args.length a, q.args ++ [a]⟩

def queueArguments (lib : StoreLibrary) (st : Store) (pos : Position) :
    List (UInt8 × Bytes) → Queued → Queued
  | [], q => q
  | (type, token) :: line, q =>
      if type = TT_COMMA then queueArguments lib st pos line q
      else if type = TT_IDENTIFIER then
        match variableGet lib st pos token .userRef with
        | none => { q with iret := 1 }
        | some valu => queueArguments lib st pos line (q.push m 0 ⟨type, valu⟩)
      else queueArguments lib st pos line (q.push m q.iret ⟨type, token⟩)

def QueueMemory.read (stack : Bytes) (ptr n : ℕ) : Bytes :=
  bytesAt (fun i => m.behind (ptr + i)) (stack.drop ptr) n

def QueueMemory.dequeue (stack : Bytes) (ptr : ℕ) : Argument :=
  ⟨(m.read stack ptr 1).headD 0,
    m.read stack (ptr + 5) (leValue (m.read stack (ptr + 1) 4))⟩

def takeArguments (stack : Bytes) : List (UInt8 × Bytes) → Taken → Taken
  | [], t => t
  | (type, name) :: line, t =>
      if type = TT_COMMA then takeArguments stack line t
      else if type = TT_IDENTIFIER then
        if t.argCnt = 0 then { t with iret := 1 }
        else
          let a := m.dequeue stack t.ptr
          takeArguments stack line
            ⟨t.iret, t.argCnt - 1, t.ptr + 5 + a.value.length, t.taken ++ [(name, a)]⟩
      else { t with iret := 1, argCnt := 0 }

def passArguments (lib : StoreLibrary) (st : Store) (pos : Position) (iret : ℕ)
    (line params : List (UInt8 × Bytes)) : Taken :=
  let q := queueArguments m lib st pos line ⟨iret, [], []⟩
  takeArguments m q.stack params ⟨q.iret, q.args.length, 0, []⟩

end

def putArgument (lib : StoreLibrary) (pos : Position) (st : Store) (param : Bytes × Argument) :
    Option Store :=
  variablePut lib st pos param.1 param.2.value param.2.value.length
    (if param.2.type = TT_IDENTIFIER then .userRef else .userLocal)

/-- `cmd_gosub()` on the variables, called at one position for a label at another one. The texts of
the new nest count and of the index to return to are given. -/
def gosubVariables (m : QueueMemory) (lib : StoreLibrary) (st : Store) (caller callee : Position)
    (nest idx : Bytes) (iret : ℕ) (line params : List (UInt8 × Bytes)) : Option (ℕ × Store) := do
  let t := passArguments m lib st caller iret line params
  let st ← variablePut lib st caller (cstr "RETURN." ++ nest) idx 0 .sc
  let st ← t.taken.foldlM (putArgument lib callee) st
  return (if t.argCnt > 0 then 1 else t.iret, st)

end ScOpen
