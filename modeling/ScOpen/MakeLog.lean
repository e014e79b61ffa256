import ScOpen.SecsEncode
import ScOpen.SecsDecodeTurn

/-!
# The log of an encoded message

`makeLog` goes through the bytes that the encoder has written and prints them. It pads its lines
in an array of a hundred bytes, so it overflows at an item that lies inside too many lists. The
encoder calls it at its end, whatever the status is.
-/

namespace ScOpen

def logPadSize : ℕ := 100

def logPad (frames : List Frame) : Except Fault Bytes :=
  if padColumn frames < logPadSize then .ok (List.replicate (padColumn frames) (chr ' '))
  else .error .bufferOverflow

/-- The unread bytes, the levels `l`, `l - 1`, .., `0` and the log. -/
structure LogState where
  cursor : Cursor
  frames : List Frame
  log : Bytes

/-- In the log of a message that is sent, the bytes of an `I1` are printed without their sign. -/
def ElementType.logKind (fl : FloatText) : ElementType → ElementKind
  | .signed1 => numberKind (cstr "<I1") 1 (fun size => 1 < size) true fun p =>
      myItoa (firstByte p).toNat
  | t => t.kind fl

theorem ElementType.logKind_width (fl : FloatText) (t : ElementType) :
    (t.logKind fl).width = t.width := by
  cases t <;> rfl

def logElements (k : ElementKind) : ℕ → LogState → Except Fault LogState
  | 0, st => .ok st
  | n + 1, st => do
      let (p, cursor) ← st.cursor.read k.width
      logElements k n { st with cursor := cursor, log := st.log ++ k.logText p }

def logClose : List Frame → LogState → Except Fault LogState
  | [], _ => .error .stackIndex
  | f :: fs, st =>
      if f.e = 0 then do
        let text ← logPad fs
        logClose fs { st with log := st.log ++ text ++ cstr ">\n" }
      else .ok { st with frames := f :: fs }

def logBranch (fl : FloatText) (text : Bytes) (frames : List Frame) (size : ℕ) (st : LogState) :
    SecsType → Except Fault LogState
  | .list =>
      if 100 ≤ frames.length then .error .stackIndex
      else
        logClose (if size = 0 then frames else ⟨size, 0⟩ :: frames)
          { st with
            log := st.log ++ text ++ cstr "<L" ++ (if size = 0 then cstr ">\n" else cstr "\n") }
  | .ascii => do
      let (p, cursor) ← st.cursor.read size
      logClose frames
        { st with
          cursor := cursor
          log := st.log ++ text ++ cstr "<A \"" ++ p ++ cstr "\">\n" }
  | .elements t => do
      let k := t.logKind fl
      let st ← logElements k (size / k.width) { st with log := st.log ++ text ++ k.tag }
      logClose frames { st with log := st.log ++ cstr ">\n" }

def logTurn (fl : FloatText) (st : LogState) : Except Fault (Option LogState) := do
  let (secsDataType, size, cursor) ← readItemHeader st.cursor
  match st.frames with
  | [] => .error .stackIndex
  | top :: below =>
      let text ← logPad st.frames
      let frames := ⟨sub32 top.e 1, top.ie + 1⟩ :: below
      match secsType? secsDataType with
      | none => return none
      | some t => do return some (← logBranch fl text frames size { st with cursor := cursor } t)

theorem logElements_shrinks {k : ElementKind} {n : ℕ} {st st' : LogState}
    (h : logElements k n st = .ok st') : st'.cursor.rest.length ≤ st.cursor.rest.length := by
  induction n generalizing st with
  | zero =>
      cases h
      exact le_rfl
  | succ n ih =>
      simp only [logElements, bind_ok_iff, Prod.exists] at h
      obtain ⟨p, cursor, hread, hrun⟩ := h
      have := Cursor.read_shrinks hread
      have := ih hrun
      simp only at this
      omega

theorem logClose_cursor {frames : List Frame} {st st' : LogState}
    (h : logClose frames st = .ok st') : st'.cursor = st.cursor := by
  induction frames generalizing st with
  | nil => cases h
  | cons f fs ih =>
      rw [logClose] at h
      split at h
      · obtain ⟨text, -, hrun⟩ := bind_ok_iff.1 h
        have hcursor := ih hrun
        exact hcursor
      · cases h
        rfl

theorem logBranch_shrinks {fl : FloatText} {text : Bytes} {frames : List Frame} {size : ℕ}
    {st st' : LogState} {t : SecsType} (h : logBranch fl text frames size st t = .ok st') :
    st'.cursor.rest.length ≤ st.cursor.rest.length := by
  cases t with
  | list =>
      simp only [logBranch] at h
      split at h
      · cases h
      · rw [logClose_cursor h]
  | ascii =>
      simp only [logBranch, bind_ok_iff, Prod.exists] at h
      obtain ⟨p, cursor, hread, hrun⟩ := h
      have := Cursor.read_shrinks hread
      rw [logClose_cursor hrun]
      simp only
      omega
  | elements t =>
      simp only [logBranch, bind_ok_iff] at h
      obtain ⟨st₁, hrun, hclose⟩ := h
      rw [logClose_cursor hclose]
      have hle := logElements_shrinks hrun
      exact hle

theorem logTurn_shrinks {fl : FloatText} {st st' : LogState}
    (h : logTurn fl st = .ok (some st')) :
    st'.cursor.rest.length < st.cursor.rest.length := by
  simp only [logTurn, bind_ok_iff, Prod.exists] at h
  obtain ⟨code, size, cursor, hheader, h⟩ := h
  have hlt := readItemHeader_shrinks hheader
  split at h
  · cases h
  · obtain ⟨text, -, h⟩ := bind_ok_iff.1 h
    split at h
    · cases h
    · obtain ⟨st₁, hrun, hret⟩ := bind_ok_iff.1 h
      cases hret
      have := logBranch_shrinks hrun
      simp only at this
      omega

/-- The loop of `make_log()`. Its status is not used. -/
def logLoop (fl : FloatText) (st : LogState) : Except Fault Bytes :=
  if st.cursor.length = 0 then .ok st.log
  else
    match _h : logTurn fl st with
    | .error fault => .error fault
    | .ok none => .ok st.log
    | .ok (some st') => logLoop fl st'
termination_by st.cursor.rest.length
decreasing_by exact logTurn_shrinks _h

def makeLog (fl : FloatText) (buffer log : Bytes) : Except Fault Bytes :=
  logLoop fl ⟨⟨buffer, buffer.length⟩, [⟨0, 0⟩], log⟩

/-! ## The encoder with its log -/

structure EncodeResult (σ : Type) where
  iret : ℕ
  head : MessageHead
  buffer : Bytes
  log : Bytes
  program : Program σ

def headLog (head : MessageHead) : Bytes :=
  cstr "S" ++ decimal head.stream ++ cstr "F" ++ decimal head.function ++ cstr " DEVICE_ID=" ++
    decimal head.deviceId ++
    (if head.waitBit ≠ 0 then cstr " WAIT_BIT=1" else cstr " WAIT_BIT=0") ++ cstr "\n"

/-- `secs_encode()`; `none` when the fuel does not last. The buffer counts its bytes with a
`uint32_t` and only grows, so it is enough to look at its end whether it has overflowed. -/
def secsEncode {σ : Type} (cmds : EncodeCommands σ) (scan : FloatScan) (fl : FloatText)
    (fuel : ℕ) (head : MessageHead) (buffer : Bytes) (p : Program σ) :
    Option (Except Fault (EncodeResult σ)) := do
  let (head, st) ← encodeItems cmds scan fuel head buffer p
  return (if 2 ^ 32 ≤ st.buffer.length then .error .bufferOverflow
    else do
      let log ← makeLog fl st.buffer (headLog head)
      return ⟨st.iret, head, st.buffer, log, st.program⟩)

end ScOpen
