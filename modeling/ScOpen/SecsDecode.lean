import ScOpen.NumberText
import ScOpen.SecsItems

/-!
# Decoding a message body

`secsDecode` goes through a message body with a cursor, a stack of open lists and fixed-size
name buffers, and adds a temporary variable for each item and element. Reading at or beyond the
end of the body, or writing beyond one of the fixed arrays, is undefined in C: here it ends the
run with a `Fault`.
-/

namespace ScOpen

inductive Fault where
  | readPastEnd
  | stackIndex
  | bufferOverflow
  | unterminated

/-- The unread bytes of the body and the `uint32_t` count `length` kept beside the pointer. -/
structure Cursor where
  rest : Bytes
  length : ℕ

def Cursor.read (c : Cursor) (n : ℕ) : Except Fault (Bytes × Cursor) :=
  if n ≤ c.rest.length then .ok (c.rest.take n, ⟨c.rest.drop n, sub32 c.length n⟩)
  else .error .readPastEnd

/-- `e[l]`, the items the open list still has to get, and `ie[l]`, the items it has got. -/
structure Frame where
  e : ℕ
  ie : ℕ
  deriving DecidableEq

abbrev TmpVariable := Bytes × Bytes

/-- `pad[256]`; `none` is a byte that nothing has been written to. -/
abbrev Pad := List (Option UInt8)

def padSize : ℕ := 256

/-- The state of the main loop. `frames` holds the levels `l`, `l - 1`, .., `0`. -/
structure DecodeState where
  cursor : Cursor
  frames : List Frame
  pad : Pad
  log : Bytes
  vars : List TmpVariable

/-- `strcpy()` and `strcat()` into `base_name[256]` or `name[256]`. -/
def nameBuffer (text : Bytes) : Except Fault Bytes :=
  if text.length < 256 then .ok text else .error .bufferOverflow

def itemName (varPrefix : Bytes) (frames : List Frame) : Bytes :=
  varPrefix ++ frames.reverse.flatMap fun f => cstr "." ++ myItoa f.ie

/-- `(l+1)*3 + 30`, the column that names are padded to. -/
def padColumn (frames : List Frame) : ℕ := frames.length * 3 + 30

/-- Pads with blanks up to the column, ends the text there and puts the name over the blanks. -/
def writePad (pad : Pad) (column : ℕ) (name : Bytes) : Pad :=
  name.map some ++
    (List.replicate column (some (chr ' ')) ++ some 0 :: pad.drop (column + 1)).drop name.length

def clearPad (column : ℕ) : Pad :=
  List.replicate column (some (chr ' ')) ++ List.replicate (padSize - column) (some 0)

/-- The text in `pad`, up to its terminator. -/
def padText : Pad → Except Fault Bytes
  | some b :: pad => if b = 0 then .ok [] else do return b :: (← padText pad)
  | _ => .error .unterminated

structure ElementKind where
  tag : Bytes
  width : ℕ
  isArray : ℕ → Bool
  emptyVariable : Bool
  wholeVariable : Bool
  logText : Bytes → Bytes
  value : Bytes → Bytes

/-- `sprintf("%G")` of the four bytes of a float and of the eight bytes of a double. -/
structure FloatText where
  float : Bytes → Bytes
  double : Bytes → Bytes

def signedValue (k : ℕ) (bs : Bytes) : ℤ := Int.bmod (leValue bs) (256 ^ k)

def booleanKind : ElementKind where
  tag := cstr "<BOOLEAN"
  width := 1
  isArray := fun size => 1 < size
  emptyVariable := true
  wholeVariable := false
  logText := fun p => if firstByte p = 0 then cstr " FALSE" else cstr " TRUE"
  value := fun p => if firstByte p = 0 then cstr "0" else cstr "1"

def binaryKind : ElementKind where
  tag := cstr "<BINARY"
  width := 1
  isArray := fun size => 1 < size
  emptyVariable := true
  wholeVariable := true
  logText := fun p => cstr " " ++ myBtohFmt1 (firstByte p)
  value := fun p => myItoa (firstByte p).toNat

def numberKind (tag : Bytes) (width : ℕ) (isArray : ℕ → Bool) (emptyVariable : Bool)
    (value : Bytes → Bytes) : ElementKind where
  tag := tag
  width := width
  isArray := isArray
  emptyVariable := emptyVariable
  wholeVariable := false
  logText := fun p => cstr " " ++ value p
  value := value

def unsigned1Kind : ElementKind :=
  numberKind (cstr "<U1") 1 (fun size => 0 < size) true fun p => myUtoa (firstByte p).toNat

def unsigned2Kind : ElementKind :=
  numberKind (cstr "<U2") 2 (fun size => 2 < size) true fun p => myUtoa (leValue (swap p))

def unsigned4Kind : ElementKind :=
  numberKind (cstr "<U4") 4 (fun size => 4 < size) true fun p => myUtoa (leValue (swap p))

def unsigned8Kind : ElementKind :=
  numberKind (cstr "<U8") 8 (fun size => 8 < size) true fun p => myUtoa (leValue (swap p))

def signed1Kind : ElementKind :=
  numberKind (cstr "<I1") 1 (fun size => 1 < size) true fun p => myItoa (signedValue 1 p)

def signed2Kind : ElementKind :=
  numberKind (cstr "<I2") 2 (fun size => 2 < size) true fun p => myItoa (signedValue 2 (swap p))

def signed4Kind : ElementKind :=
  numberKind (cstr "<I4") 4 (fun size => 4 < size) true fun p => myItoa (signedValue 4 (swap p))

def signed8Kind : ElementKind :=
  numberKind (cstr "<I8") 8 (fun size => 8 < size) true fun p => myItoa (signedValue 8 (swap p))

def float4Kind (fl : FloatText) : ElementKind :=
  numberKind (cstr "<F4") 4 (fun size => 4 < size) false fun p => fl.float (swap p)

def float8Kind (fl : FloatText) : ElementKind :=
  numberKind (cstr "<F8") 8 (fun size => 8 < size) false fun p => fl.double (swap p)

def ElementType.kind (fl : FloatText) : ElementType → ElementKind
  | .binary => binaryKind
  | .boolean => booleanKind
  | .unsigned1 => unsigned1Kind
  | .unsigned2 => unsigned2Kind
  | .unsigned4 => unsigned4Kind
  | .unsigned8 => unsigned8Kind
  | .signed1 => signed1Kind
  | .signed2 => signed2Kind
  | .signed4 => signed4Kind
  | .signed8 => signed8Kind
  | .float4 => float4Kind fl
  | .float8 => float8Kind fl

theorem ElementType.kind_width (fl : FloatText) (t : ElementType) :
    (t.kind fl).width = t.width := by
  cases t <;> rfl

/-- The name of element `i`, counted from zero: numbered in an array, else the item's name. -/
def elementName (baseName : Bytes) (array : Bool) (i : ℕ) : Bytes :=
  if array then baseName ++ myItoaFmt1 (i + 1) else baseName

def decodeElements (k : ElementKind) (baseName : Bytes) (array : Bool) :
    ℕ → ℕ → DecodeState → Except Fault DecodeState
  | 0, _, st => .ok st
  | n + 1, i, st => do
      let name ← nameBuffer (elementName baseName array i)
      let (p, cursor) ← st.cursor.read k.width
      decodeElements k baseName array n (i + 1)
        { st with
          cursor := cursor
          log := st.log ++ k.logText p
          vars := st.vars ++ [(name, k.value p)] }

/-- The variable `xx[]` with the bytes of a binary array. -/
def addWholeVariable (k : ElementKind) (baseName : Bytes) (size : ℕ) (data : Bytes)
    (st : DecodeState) : Except Fault DecodeState :=
  if k.wholeVariable ∧ k.isArray size then do
    let name ← nameBuffer (baseName ++ cstr "[]")
    return { st with vars := st.vars ++ [(name, data.flatMap myBtoh)] }
  else .ok st

def decodeElementItem (k : ElementKind) (baseName : Bytes) (size : ℕ) (st : DecodeState) :
    Except Fault DecodeState := do
  let text ← padText st.pad
  let tmpP := st.cursor.rest
  let st ← decodeElements k baseName (k.isArray size) (size / k.width) 0
    { st with
      log := st.log ++ text ++ k.tag
      vars := st.vars ++ if size = 0 ∧ k.emptyVariable then [(baseName, [])] else [] }
  let st ← addWholeVariable k baseName size (tmpP.take size) st
  return { st with log := st.log ++ cstr ">\n" }

def addArrayVariables (k : ElementKind) (baseName : Bytes) (size : ℕ) (st : DecodeState) :
    Except Fault DecodeState :=
  if k.isArray size then do
    let name ← nameBuffer (baseName ++ cstr "[0]")
    return { st with
      vars := st.vars ++ [(baseName, cstr "ARRAY"), (name, myItoa (size / k.width : ℕ))] }
  else .ok st

def closeLists : List Frame → DecodeState → Except Fault DecodeState
  | [], _ => .error .stackIndex
  | f :: fs, st =>
      if f.e = 0 then
        if padColumn fs < padSize then do
          let pad := clearPad (padColumn fs)
          let text ← padText pad
          closeLists fs { st with pad := pad, log := st.log ++ text ++ cstr ">\n" }
        else .error .bufferOverflow
      else .ok { st with frames := f :: fs }

inductive TurnResult where
  | next (st : DecodeState)
  | unknown (st : DecodeState)

/-- The format byte and the length bytes: the type, the length and the cursor after them. -/
def readItemHeader (cursor : Cursor) : Except Fault (ℕ × ℕ × Cursor) := do
  let (p, cursor) ← cursor.read 1
  let secsDataType := (firstByte p).toNat &&& 0xFC
  let numLengthBits := (firstByte p).toNat &&& 0x03
  let (p, cursor) ← cursor.read (lengthByteCount numLengthBits)
  return (secsDataType, beValue p, cursor)

def decodeBranch (fl : FloatText) (baseName : Bytes) (frames : List Frame) (size : ℕ)
    (st : DecodeState) : SecsType → Except Fault DecodeState
  | .list => do
      let text ← padText st.pad
      if 100 ≤ frames.length then .error .stackIndex
      else
        closeLists (if size = 0 then frames else ⟨size, 0⟩ :: frames)
          { st with
            log := st.log ++ text ++ cstr "<L" ++ cstr " " ++ myItoa size ++
              (if size = 0 then cstr ">\n" else cstr "\n")
            vars := st.vars ++ [(baseName, myItoa size)] }
  | .ascii => do
      let text ← padText st.pad
      let (p, cursor) ← st.cursor.read size
      closeLists frames
        { st with
          cursor := cursor
          log := st.log ++ text ++ cstr "<A \"" ++ p ++ cstr "\">\n"
          vars := st.vars ++ [(baseName, p)] }
  | .elements t => do
      let st ← decodeElementItem (t.kind fl) baseName size st
      let st ← addArrayVariables (t.kind fl) baseName size st
      closeLists frames st

def decodeTurn (fl : FloatText) (varPrefix : Bytes) (st : DecodeState) :
    Except Fault TurnResult := do
  let (secsDataType, size, cursor) ← readItemHeader st.cursor
  match st.frames with
  | [] => .error .stackIndex
  | top :: below =>
      let top := { top with ie := top.ie + 1 }
      let baseName ← nameBuffer (itemName varPrefix (top :: below))
      if padSize ≤ padColumn st.frames then .error .bufferOverflow
      else
        let pad := writePad st.pad (padColumn st.frames) baseName
        let frames := { top with e := sub32 top.e 1 } :: below
        let st := { st with cursor := cursor, frames := frames, pad := pad }
        match secsType? secsDataType with
        | none => return .unknown st
        | some t => do return .next (← decodeBranch fl baseName frames size st t)

/-! ## The main loop

Every turn takes at least the format byte off the body, so the loop ends. -/

theorem bind_ok_iff {ε α β : Type} {x : Except ε α} {f : α → Except ε β} {b : β} :
    (x >>= f) = .ok b ↔ ∃ a, x = .ok a ∧ f a = .ok b := by
  cases x <;> simp [bind, Except.bind]

theorem Cursor.read_inv {c c' : Cursor} {n : ℕ} {p : Bytes} (h : c.read n = .ok (p, c')) :
    n ≤ c.rest.length ∧ p = c.rest.take n ∧ c'.rest = c.rest.drop n := by
  unfold Cursor.read at h
  split at h
  · rename_i hn
    cases h
    exact ⟨hn, rfl, rfl⟩
  · cases h

theorem Cursor.read_shrinks {c c' : Cursor} {n : ℕ} {p : Bytes} (h : c.read n = .ok (p, c')) :
    c'.rest.length + n = c.rest.length := by
  obtain ⟨hn, -, hrest⟩ := Cursor.read_inv h
  rw [hrest, List.length_drop]
  omega

theorem readItemHeader_shrinks {c c' : Cursor} {code size : ℕ}
    (h : readItemHeader c = .ok (code, size, c')) : c'.rest.length < c.rest.length := by
  simp only [readItemHeader, bind_ok_iff, Prod.exists] at h
  obtain ⟨p, c₁, hread, p', c₂, hread', hret⟩ := h
  cases hret
  have := Cursor.read_shrinks hread
  have := Cursor.read_shrinks hread'
  omega

theorem decodeElements_shrinks {k : ElementKind} {baseName : Bytes} {array : Bool} {n i : ℕ}
    {st st' : DecodeState} (h : decodeElements k baseName array n i st = .ok st') :
    st'.cursor.rest.length ≤ st.cursor.rest.length := by
  induction n generalizing i st with
  | zero =>
      cases h
      exact le_rfl
  | succ n ih =>
      simp only [decodeElements, bind_ok_iff, Prod.exists] at h
      obtain ⟨name, -, p, cursor, hread, hrun⟩ := h
      have := Cursor.read_shrinks hread
      have := ih hrun
      simp only at this
      omega

theorem addWholeVariable_cursor {k : ElementKind} {baseName : Bytes} {size : ℕ} {data : Bytes}
    {st st' : DecodeState} (h : addWholeVariable k baseName size data st = .ok st') :
    st'.cursor = st.cursor := by
  unfold addWholeVariable at h
  split at h
  · obtain ⟨name, -, hret⟩ := bind_ok_iff.1 h
    cases hret
    rfl
  · cases h
    rfl

theorem addArrayVariables_cursor {k : ElementKind} {baseName : Bytes} {size : ℕ}
    {st st' : DecodeState} (h : addArrayVariables k baseName size st = .ok st') :
    st'.cursor = st.cursor := by
  unfold addArrayVariables at h
  split at h
  · obtain ⟨name, -, hret⟩ := bind_ok_iff.1 h
    cases hret
    rfl
  · cases h
    rfl

theorem closeLists_cursor {frames : List Frame} {st st' : DecodeState}
    (h : closeLists frames st = .ok st') : st'.cursor = st.cursor := by
  induction frames generalizing st with
  | nil => cases h
  | cons f fs ih =>
      rw [closeLists] at h
      split at h
      · split at h
        · obtain ⟨text, -, hrun⟩ := bind_ok_iff.1 h
          have hcursor := ih hrun
          exact hcursor
        · cases h
      · cases h
        rfl

theorem decodeBranch_shrinks {fl : FloatText} {baseName : Bytes} {frames : List Frame}
    {size : ℕ} {st st' : DecodeState} {t : SecsType}
    (h : decodeBranch fl baseName frames size st t = .ok st') :
    st'.cursor.rest.length ≤ st.cursor.rest.length := by
  cases t with
  | list =>
      obtain ⟨text, -, hrun⟩ := bind_ok_iff.1 h
      split at hrun
      · cases hrun
      · rw [closeLists_cursor hrun]
  | ascii =>
      simp only [decodeBranch, bind_ok_iff, Prod.exists] at h
      obtain ⟨text, -, p, cursor, hread, hrun⟩ := h
      have := Cursor.read_shrinks hread
      rw [closeLists_cursor hrun]
      simp only
      omega
  | elements t =>
      simp only [decodeBranch, decodeElementItem, bind_ok_iff] at h
      obtain ⟨st₃, ⟨text, -, st₁, hrun, st₂, hwhole, hret⟩, st₄, harray, hclose⟩ := h
      cases hret
      rw [closeLists_cursor hclose, addArrayVariables_cursor harray,
        addWholeVariable_cursor hwhole]
      have hle := decodeElements_shrinks hrun
      exact hle

theorem decodeTurn_shrinks {fl : FloatText} {varPrefix : Bytes} {st st' : DecodeState}
    (h : decodeTurn fl varPrefix st = .ok (.next st')) :
    st'.cursor.rest.length < st.cursor.rest.length := by
  simp only [decodeTurn, bind_ok_iff, Prod.exists] at h
  obtain ⟨code, size, cursor, hheader, h⟩ := h
  have hlt := readItemHeader_shrinks hheader
  split at h
  · cases h
  · obtain ⟨baseName, -, h⟩ := bind_ok_iff.1 h
    split at h
    · cases h
    · split at h
      · cases h
      · obtain ⟨st₁, hrun, hret⟩ := bind_ok_iff.1 h
        cases hret
        have := decodeBranch_shrinks hrun
        simp only at this
        omega

def decodeLoop (fl : FloatText) (varPrefix : Bytes) (st : DecodeState) :
    Except Fault (ℕ × DecodeState) :=
  if st.cursor.length = 0 then .ok (0, st)
  else
    match _h : decodeTurn fl varPrefix st with
    | .error fault => .error fault
    | .ok (.unknown st) => .ok (1, st)
    | .ok (.next st') => decodeLoop fl varPrefix st'
termination_by st.cursor.rest.length
decreasing_by exact decodeTurn_shrinks _h

structure MessageBody where
  bytes : Bytes
  length_fits : bytes.length < 2 ^ 32

def secsDecode (fl : FloatText) (varPrefix : Bytes) (body : MessageBody) (log : Bytes) :
    Except Fault (ℕ × DecodeState) :=
  decodeLoop fl varPrefix
    { cursor := ⟨body.bytes, body.bytes.length⟩
      frames := [⟨0, 0⟩]
      pad := List.replicate padSize none
      log := log
      vars := [] }

end ScOpen
