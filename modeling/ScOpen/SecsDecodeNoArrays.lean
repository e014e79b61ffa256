import ScOpen.SecsDecode

/-!
# Decoding without arrays

`secsDecodeNoArrays` goes through a message body the same way as `secsDecode`, but it adds one
variable for each item. The elements of an item are joined in its value, a blank after each.
-/

namespace ScOpen

structure PlainKind where
  tag : Bytes
  width : ℕ
  logText : Bytes → Bytes
  value : Bytes → Bytes

def plainBoolean : PlainKind where
  tag := cstr "<BOOLEAN"
  width := 1
  logText := fun p => cstr " " ++ if firstByte p = 0 then cstr "FALSE" else cstr "TRUE"
  value := fun p => if firstByte p = 0 then cstr "F" else cstr "T"

def plainBinary : PlainKind where
  tag := cstr "<BINARY"
  width := 1
  logText := fun p => cstr " " ++ myBtohFmt1 (firstByte p)
  value := fun p => myBtoh (firstByte p)

def plainNumber (tag : Bytes) (width : ℕ) (value : Bytes → Bytes) : PlainKind where
  tag := tag
  width := width
  logText := fun p => cstr " " ++ value p
  value := value

def plainUnsigned1 : PlainKind :=
  plainNumber (cstr "<U1") 1 fun p => myUtoa (firstByte p).toNat

def plainUnsigned2 : PlainKind :=
  plainNumber (cstr "<U2") 2 fun p => myUtoa (leValue (swap p))

def plainUnsigned4 : PlainKind :=
  plainNumber (cstr "<U4") 4 fun p => myUtoa (leValue (swap p))

def plainUnsigned8 : PlainKind :=
  plainNumber (cstr "<U8") 8 fun p => myUtoa (leValue (swap p))

def plainSigned1 : PlainKind :=
  plainNumber (cstr "<I1") 1 fun p => myItoa (signedValue 1 p)

def plainSigned2 : PlainKind :=
  plainNumber (cstr "<I2") 2 fun p => myItoa (signedValue 2 (swap p))

def plainSigned4 : PlainKind :=
  plainNumber (cstr "<I4") 4 fun p => myItoa (signedValue 4 (swap p))

def plainSigned8 : PlainKind :=
  plainNumber (cstr "<I8") 8 fun p => myItoa (signedValue 8 (swap p))

def plainFloat4 (fl : FloatText) : PlainKind :=
  plainNumber (cstr "<F4") 4 fun p => fl.float (swap p)

def plainFloat8 (fl : FloatText) : PlainKind :=
  plainNumber (cstr "<F8") 8 fun p => fl.double (swap p)

def ElementType.plainKind (fl : FloatText) : ElementType → PlainKind
  | .binary => plainBinary
  | .boolean => plainBoolean
  | .unsigned1 => plainUnsigned1
  | .unsigned2 => plainUnsigned2
  | .unsigned4 => plainUnsigned4
  | .unsigned8 => plainUnsigned8
  | .signed1 => plainSigned1
  | .signed2 => plainSigned2
  | .signed4 => plainSigned4
  | .signed8 => plainSigned8
  | .float4 => plainFloat4 fl
  | .float8 => plainFloat8 fl

def plainElements (k : PlainKind) :
    ℕ → Cursor → Bytes → Bytes → Except Fault (Cursor × Bytes × Bytes)
  | 0, cursor, log, value => .ok (cursor, log, value)
  | n + 1, cursor, log, value => do
      let (p, cursor) ← cursor.read k.width
      plainElements k n cursor (log ++ k.logText p) (value ++ k.value p ++ cstr " ")

def plainElementItem (k : PlainKind) (name : Bytes) (size : ℕ) (st : DecodeState) :
    Except Fault DecodeState := do
  let text ← padText st.pad
  let (cursor, log, value) ←
    plainElements k (size / k.width) st.cursor (st.log ++ text ++ k.tag) []
  return { st with
    cursor := cursor
    log := log ++ cstr ">\n"
    vars := st.vars ++ [(name, value)] }

def decodeBranchNoArrays (fl : FloatText) (name : Bytes) (frames : List Frame) (size : ℕ)
    (st : DecodeState) : SecsType → Except Fault DecodeState
  | .list => do
      let text ← padText st.pad
      if 100 ≤ frames.length then .error .stackIndex
      else
        closeLists (if size = 0 then frames else ⟨size, 0⟩ :: frames)
          { st with
            log := st.log ++ text ++ cstr "<L" ++ cstr " " ++ myItoa size ++
              (if size = 0 then cstr ">\n" else cstr "\n")
            vars := st.vars ++ [(name, myItoa size)] }
  | .ascii => do
      let text ← padText st.pad
      let (p, cursor) ← st.cursor.read size
      closeLists frames
        { st with
          cursor := cursor
          log := st.log ++ text ++ cstr "<A \"" ++ p ++ cstr "\">\n"
          vars := st.vars ++ [(name, p)] }
  | .elements t => do
      closeLists frames (← plainElementItem (t.plainKind fl) name size st)

def decodeTurnNoArrays (fl : FloatText) (varPrefix : Bytes) (st : DecodeState) :
    Except Fault TurnResult := do
  let (secsDataType, size, cursor) ← readItemHeader st.cursor
  match st.frames with
  | [] => .error .stackIndex
  | top :: below =>
      let top := { top with ie := top.ie + 1 }
      let name ← nameBuffer (itemName varPrefix (top :: below))
      if padSize ≤ padColumn st.frames then .error .bufferOverflow
      else
        let pad := writePad st.pad (padColumn st.frames) name
        let frames := { top with e := sub32 top.e 1 } :: below
        let st := { st with cursor := cursor, frames := frames, pad := pad }
        match secsType? secsDataType with
        | none => return .unknown st
        | some t => do return .next (← decodeBranchNoArrays fl name frames size st t)

theorem plainElements_shrinks {k : PlainKind} {n : ℕ} {cursor cursor' : Cursor}
    {log log' value value' : Bytes}
    (h : plainElements k n cursor log value = .ok (cursor', log', value')) :
    cursor'.rest.length ≤ cursor.rest.length := by
  induction n generalizing cursor log value with
  | zero =>
      cases h
      exact le_rfl
  | succ n ih =>
      simp only [plainElements, bind_ok_iff, Prod.exists] at h
      obtain ⟨p, cursor₁, hread, hrun⟩ := h
      have := Cursor.read_shrinks hread
      have := ih hrun
      omega

theorem decodeBranchNoArrays_shrinks {fl : FloatText} {name : Bytes} {frames : List Frame}
    {size : ℕ} {st st' : DecodeState} {t : SecsType}
    (h : decodeBranchNoArrays fl name frames size st t = .ok st') :
    st'.cursor.rest.length ≤ st.cursor.rest.length := by
  cases t with
  | list =>
      obtain ⟨text, -, hrun⟩ := bind_ok_iff.1 h
      split at hrun
      · cases hrun
      · rw [closeLists_cursor hrun]
  | ascii =>
      simp only [decodeBranchNoArrays, bind_ok_iff, Prod.exists] at h
      obtain ⟨text, -, p, cursor, hread, hrun⟩ := h
      have := Cursor.read_shrinks hread
      rw [closeLists_cursor hrun]
      simp only
      omega
  | elements t =>
      simp only [decodeBranchNoArrays, plainElementItem, bind_ok_iff, Prod.exists] at h
      obtain ⟨st₁, ⟨text, -, cursor, log, value, hrun, hret⟩, hclose⟩ := h
      cases hret
      rw [closeLists_cursor hclose]
      exact plainElements_shrinks hrun

theorem decodeTurnNoArrays_shrinks {fl : FloatText} {varPrefix : Bytes} {st st' : DecodeState}
    (h : decodeTurnNoArrays fl varPrefix st = .ok (.next st')) :
    st'.cursor.rest.length < st.cursor.rest.length := by
  simp only [decodeTurnNoArrays, bind_ok_iff, Prod.exists] at h
  obtain ⟨code, size, cursor, hheader, h⟩ := h
  have hlt := readItemHeader_shrinks hheader
  split at h
  · cases h
  · obtain ⟨name, -, h⟩ := bind_ok_iff.1 h
    split at h
    · cases h
    · split at h
      · cases h
      · obtain ⟨st₁, hrun, hret⟩ := bind_ok_iff.1 h
        cases hret
        have := decodeBranchNoArrays_shrinks hrun
        simp only at this
        omega

def decodeLoopNoArrays (fl : FloatText) (varPrefix : Bytes) (st : DecodeState) :
    Except Fault (ℕ × DecodeState) :=
  if st.cursor.length = 0 then .ok (0, st)
  else
    match _h : decodeTurnNoArrays fl varPrefix st with
    | .error fault => .error fault
    | .ok (.unknown st) => .ok (1, st)
    | .ok (.next st') => decodeLoopNoArrays fl varPrefix st'
termination_by st.cursor.rest.length
decreasing_by exact decodeTurnNoArrays_shrinks _h

def secsDecodeNoArrays (fl : FloatText) (varPrefix : Bytes) (body : MessageBody) (log : Bytes) :
    Except Fault (ℕ × DecodeState) :=
  decodeLoopNoArrays fl varPrefix
    { cursor := ⟨body.bytes, body.bytes.length⟩
      frames := [⟨0, 0⟩]
      pad := List.replicate padSize none
      log := log
      vars := [] }

theorem decodeLoopNoArrays_eq (fl : FloatText) (varPrefix : Bytes) (st : DecodeState) :
    decodeLoopNoArrays fl varPrefix st =
      if st.cursor.length = 0 then .ok (0, st)
      else
        match decodeTurnNoArrays fl varPrefix st with
        | .error fault => .error fault
        | .ok (.unknown st) => .ok (1, st)
        | .ok (.next st') => decodeLoopNoArrays fl varPrefix st' := by
  rw [decodeLoopNoArrays]
  split
  · rfl
  · split <;> rename_i heq <;> simp only [heq]

end ScOpen
