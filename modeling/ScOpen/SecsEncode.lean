import ScOpen.NumberText
import ScOpen.SecsDecode
import ScOpen.ProgramTokens

/-!
# Encoding a message from its tokens

`secsEncode` reads the stream, function, device id and wait bit and then the items of a message
from the program's tokens. The loops over the tokens do not stop at the end of the program, so
they run on fuel and an item that is never closed makes the encoder run for ever. The commands
`for` and `next` inside a message, and the conversions of the C library for floating point
numbers, are parameters.
-/

namespace ScOpen

/-- The program's side of the encoder: variables, `cmd_for()` and `cmd_next()`. -/
structure EncodeCommands (σ : Type) where
  evaluateToken : Bytes → σ → Bytes × σ
  cmdFor : Program σ → ℕ × Program σ
  cmdNext : Program σ → ℕ × Program σ

/-- What the C library makes of a text: `sscanf("%f")` as the bytes of the float, `atof()` as the
bytes of the double, and `sscanf("%2x")`. -/
structure FloatScan where
  scanFloat : Bytes → Option Bytes
  atof : Bytes → Bytes
  scanHex : Bytes → Option ℕ

/-- `set_size_bytes()`: as few length bytes as the length needs, but never more than three. -/
def setSizeBytes (itemLength : ℕ) : Bytes :=
  if itemLength ≤ 0xFF then [UInt8.ofNat itemLength]
  else if itemLength ≤ 0xFFFF then
    [UInt8.ofNat (itemLength >>> 8), UInt8.ofNat itemLength]
  else [UInt8.ofNat (itemLength >>> 16), UInt8.ofNat (itemLength >>> 8), UInt8.ofNat itemLength]

/-- The header that `STORE_DATA` and the list branch put in front of an item. -/
def itemHeader (t : SecsType) (numBytes : ℕ) : Bytes :=
  UInt8.ofNat (t.code + (setSizeBytes numBytes).length) :: setSizeBytes numBytes

/-- What the text of one token adds to the data of an item. `error` sets the status, `stop`
leaves the loop over the item's tokens. -/
structure Converted where
  data : Bytes
  numBytes : ℕ
  error : Bool
  stop : Bool

def secondByte (text : Bytes) : UInt8 := firstByte text.tail

/-- The loop over the values in one text. The conversion gives the bytes of a value and how many
characters it used, -1 for none. -/
def valuesLoop (convert : Bytes → Bytes × ℤ) (p : Bytes) : Converted :=
  if p = [] then ⟨[], 0, false, false⟩
  else
    let (data, cnt) := convert p
    if cnt ≤ 0 then ⟨[], 0, true, false⟩
    else
      let rest := valuesLoop convert (p.drop cnt.toNat)
      ⟨data ++ rest.data, data.length + rest.numBytes, rest.error, rest.stop⟩
termination_by p.length
decreasing_by
  have hpos : 0 < p.length := List.length_pos_of_ne_nil (by assumption)
  rw [List.length_drop]
  omega

def convertAscii (text : Bytes) : Converted := ⟨text, text.length, false, false⟩

def convertBoolean (text : Bytes) : Converted :=
  if firstByte text = chr 'T' ∨ firstByte text = chr '1' then ⟨[1], 1, false, false⟩
  else if firstByte text = chr 'F' ∨ firstByte text = chr '0' then ⟨[0], 1, false, false⟩
  else ⟨[], 0, true, true⟩

def convertBinary (text : Bytes) : Converted :=
  valuesLoop (fun p => ([UInt8.ofNat (myAtobyte p).1], (myAtobyte p).2)) (cString text)

/-- A text of a `U1`, `U2`, `U4` or `U8` item: the number is cut to the width and swapped. -/
def convertUnsigned (width : ℕ) (text : Bytes) : Converted :=
  valuesLoop (fun p => (swap (leBytes width (myAtou p).1), (myAtou p).2)) (cString text)

def convertSigned (width : ℕ) (text : Bytes) : Converted :=
  valuesLoop (fun p =>
    (swap (leBytes width ((myAtoi p).1 % 256 ^ width).toNat), (myAtoi p).2)) (cString text)

/-- What is left of a text from the first blank after its first value on. -/
def nextBlank (p : Bytes) : Bytes :=
  (p.dropWhile (· = chr ' ')).dropWhile (· ≠ chr ' ')

def hexBytes (scan : FloatScan) : ℕ → Bytes → Bytes
  | 0, _ => []
  | n + 1, p =>
      let p := p.drop 2
      (match scan.scanHex p with
        | some u => [UInt8.ofNat u]
        | none => []) ++ hexBytes scan n p

theorem nextBlank_length {p : Bytes} (h : nextBlank p ≠ []) : (nextBlank p).length < p.length := by
  unfold nextBlank at h ⊢
  have hle := (List.dropWhile_sublist (l := p) (· = chr ' ')).length_le
  cases hq : p.dropWhile (· = chr ' ') with
  | nil => simp [hq] at h
  | cons c q =>
      rw [hq, List.length_cons] at hle
      have hc : c ≠ chr ' ' := by
        have hhead := List.head_dropWhile_not (· = chr ' ') (l := p) (by rw [hq]; simp)
        simp only [hq, List.head_cons, decide_eq_false_iff_not] at hhead
        exact hhead
      have hsub := (List.dropWhile_sublist (l := q) (· ≠ chr ' ')).length_le
      rw [List.dropWhile_cons_of_pos (by simpa using hc)]
      omega

def floatsLoop (scan : FloatScan) (width : ℕ) (convert : Bytes → Option Bytes) (p : Bytes) :
    Converted :=
  let hex := firstByte p = chr '\\' ∧ secondByte p = chr 'x'
  if hex ∧ p.length ≠ 2 + 2 * width then ⟨[], 0, true, false⟩
  else
    match if hex then some (hexBytes scan width p) else convert p with
    | none => ⟨[], 0, false, false⟩
    | some data =>
        let p := if hex then p.drop (2 * width) else p
        if _h : nextBlank p ≠ [] then
          let rest := floatsLoop scan width convert (nextBlank p)
          ⟨data ++ rest.data, width + rest.numBytes, rest.error, rest.stop⟩
        else ⟨data, width, false, false⟩
termination_by p.length
decreasing_by
  refine (nextBlank_length _h).trans_le ?_
  by_cases hhex : hex
  · simp [p, hhex]
  · simp [p, hhex]

def convertFloat4 (scan : FloatScan) (text : Bytes) : Converted :=
  floatsLoop scan 4 (fun p => (scan.scanFloat p).map swap) (cString text)

def convertFloat8 (scan : FloatScan) (text : Bytes) : Converted :=
  floatsLoop scan 8 (fun p => some (swap (scan.atof p))) (cString text)

/-- What the text after `<` begins. `minus` says that a minus token belongs to the next number. -/
inductive Branch where
  | list
  | item (t : SecsType) (minus : Bool) (convert : Bytes → Converted)
  | invalid
  | other

def branchOf (scan : FloatScan) (text : Bytes) : Branch :=
  let c := firstByte text
  let d := secondByte text
  if c = chr 'L' then .list
  else if c = chr 'A' then .item .ascii false convertAscii
  else if c = chr 'B' ∧ d = chr 'O' then .item (.elements .boolean) false convertBoolean
  else if c = chr 'B' then .item (.elements .binary) false convertBinary
  else if c = chr 'U' then
    if d = chr '1' then .item (.elements .unsigned1) false (convertUnsigned 1)
    else if d = chr '2' then .item (.elements .unsigned2) false (convertUnsigned 2)
    else if d = chr '4' then .item (.elements .unsigned4) false (convertUnsigned 4)
    else if d = chr '8' then .item (.elements .unsigned8) false (convertUnsigned 8)
    else .invalid
  else if c = chr 'I' then
    if d = chr '1' then .item (.elements .signed1) true (convertSigned 1)
    else if d = chr '2' then .item (.elements .signed2) true (convertSigned 2)
    else if d = chr '4' then .item (.elements .signed4) true (convertSigned 4)
    else if d = chr '8' then .item (.elements .signed8) true (convertSigned 8)
    else .invalid
  else if c = chr 'F' then
    if d = chr '4' then .item (.elements .float4) true (convertFloat4 scan)
    else if d = chr '8' then .item (.elements .float8) true (convertFloat8 scan)
    else .invalid
  else .other

structure ItemData where
  data : Bytes
  numBytes : ℕ
  iret : ℕ

structure EncodeState (σ : Type) where
  program : Program σ
  iret : ℕ
  buffer : Bytes

section

variable {σ : Type} (cmds : EncodeCommands σ) (scan : FloatScan)

def itemLoop (minus : Bool) (convert : Bytes → Converted) :
    ℕ → Program σ → ItemData → Option (ItemData × Program σ)
  | 0, _, _ => none
  | n + 1, p, d =>
      let (type, text, p) := getProgramToken cmds.evaluateToken p
      if type = .greaterThan then some (d, putProgramToken p)
      else
        let (text, p) :=
          if minus ∧ type = .minus then
            let (_, text, p) := getProgramToken cmds.evaluateToken p
            (chr '-' :: cString text, p)
          else (text, p)
        let c := convert text
        let d : ItemData :=
          { data := d.data ++ c.data
            numBytes := (d.numBytes + c.numBytes) % 2 ^ 32
            iret := if c.error then 1 else d.iret }
        if c.stop then some (d, p) else itemLoop minus convert n p d

/-- The loop of `get_num_list_elements()`. -/
def countLoop : ℕ → ℕ → ℕ → Program σ → Option (ℕ × Program σ)
  | 0, _, _, _ => none
  | n + 1, nest, cnt, p =>
      let (type, _, p) := getProgramToken cmds.evaluateToken p
      match type with
      | .nullToken => some (cnt, p)
      | .lessThan => countLoop n (nest + 1) (if nest = 0 then cnt + 1 else cnt) p
      | .greaterThan => if nest = 0 then some (cnt, p) else countLoop n (nest - 1) cnt p
      | .for_ =>
          let (r, p) := cmds.cmdFor p
          if r ≠ 0 then some (cnt, p) else countLoop n nest cnt p
      | .next =>
          let (r, p) := cmds.cmdNext p
          if r ≠ 0 then some (cnt, p) else countLoop n nest cnt p
      | _ => countLoop n nest cnt p

/-- `get_num_list_elements()`: counts ahead and goes back to where it started. -/
def getNumListElements (fuel : ℕ) (p : Program σ) : Option (ℕ × Program σ) := do
  let (cnt, p') ← countLoop cmds fuel 0 0 p
  return (cnt, setProgramTokenIdx p.programIdx p')

def encodeLoop : ℕ → EncodeState σ → Option (EncodeState σ)
  | 0, _ => none
  | n + 1, st =>
      if st.iret ≠ 0 then some st
      else
        let (type, text, p) := getProgramToken cmds.evaluateToken st.program
        match type with
        | .nullToken | .period => some { st with program := p }
        | .lineNumber | .endOfLine | .greaterThan | .lessThan =>
            encodeLoop n { st with program := p }
        | _ =>
            match branchOf scan text with
            | .list => do
                let (numBytes, p) ← getNumListElements cmds n p
                encodeLoop n
                  { st with
                    program := p
                    buffer := st.buffer ++ itemHeader .list numBytes }
            | .item t minus convert => do
                let (d, p) ← itemLoop cmds minus convert n p ⟨[], 0, st.iret⟩
                encodeLoop n
                  { program := p
                    iret := d.iret
                    buffer := st.buffer ++ itemHeader t d.numBytes ++ d.data }
            | .invalid => some { st with program := p, iret := 1 }
            | .other =>
                if type = .for_ then
                  let (r, p) := cmds.cmdFor p
                  if r ≠ 0 then some { st with program := p, iret := 1 }
                  else encodeLoop n { st with program := p }
                else if type = .next then
                  let (r, p) := cmds.cmdNext p
                  if r ≠ 0 then some { st with program := p, iret := 1 }
                  else encodeLoop n { st with program := p }
                else some { st with program := p, iret := 1 }

end

/-! ## The head of a message -/

def isSpace (c : UInt8) : Bool := c = 32 ∨ 9 ≤ c ∧ c ≤ 13

/-- The `%u` conversion of `sscanf()`: the number and the rest of the text. A number that does not
fit into an `unsigned long` is the largest one, with a sign or without. -/
def scanUnsigned (text : Bytes) : Option (ℕ × Bytes) :=
  let p := text.dropWhile isSpace
  let sign := firstByte p = chr '-' ∨ firstByte p = chr '+'
  let negative := firstByte p = chr '-'
  let p := if sign then p.tail else p
  let digits := p.takeWhile fun c => IsDigit c
  if digits = [] then none
  else
    let num := decimalValue digits
    let value := if 2 ^ 64 ≤ num then 2 ^ 64 - 1 else if negative then 2 ^ 64 - num else num
    some (value % 2 ^ 32, p.drop digits.length)

/-- `sscanf("S%uF%u")`: the numbers that it finds, from the left. -/
def scanStreamFunction (text : Bytes) : Option ℕ × Option ℕ :=
  if firstByte text = chr 'S' then
    match scanUnsigned text.tail with
    | none => (none, none)
    | some (stream, p) =>
        if firstByte p = chr 'F' then (some stream, (scanUnsigned p.tail).map (·.1))
        else (some stream, none)
  else (none, none)

structure MessageHead where
  stream : ℕ
  function : ℕ
  deviceId : ℕ
  waitBit : ℕ
  deriving DecidableEq

/-- The stream, the function and the device id. Values that are not found stay as they were. -/
def encodeNumbers {σ : Type} (cmds : EncodeCommands σ) (head : MessageHead) (p : Program σ) :
    ℕ × MessageHead × Program σ :=
  let (_, text, p) := getProgramToken cmds.evaluateToken p
  let found := scanStreamFunction (cString text)
  let head := { head with
    stream := found.1.getD head.stream
    function := found.2.getD head.function }
  if found.2 = none then (1, head, p)
  else
    let (_, text, p) := getProgramToken cmds.evaluateToken p
    match scanUnsigned (cString text) with
    | none => (1, head, p)
    | some (deviceId, _) => (0, { head with deviceId := deviceId }, p)

/-- The wait bit; a token that is something else is put back, twice, which is the same as once. -/
def encodeWaitBit {σ : Type} (cmds : EncodeCommands σ) (head : MessageHead) (p : Program σ) :
    MessageHead × Program σ :=
  let (_, text, p) := getProgramToken cmds.evaluateToken p
  if firstByte text = chr 'W' then ({ head with waitBit := 1 }, p)
  else ({ head with waitBit := 0 }, putProgramToken (putProgramToken p))

/-- The tokens in front of the items. -/
def encodeHead {σ : Type} (cmds : EncodeCommands σ) (head : MessageHead) (p : Program σ) :
    ℕ × MessageHead × Program σ :=
  let (iret, head, p) := encodeNumbers cmds head p
  if iret ≠ 0 then (iret, head, p)
  else
    let (head, p) := encodeWaitBit cmds head p
    (0, head, p)

def encodeItems {σ : Type} (cmds : EncodeCommands σ) (scan : FloatScan) (fuel : ℕ)
    (head : MessageHead) (buffer : Bytes) (p : Program σ) :
    Option (MessageHead × EncodeState σ) := do
  let (iret, head, p) := encodeHead cmds head p
  let st ← encodeLoop cmds scan fuel ⟨p, iret, buffer⟩
  return (head, st)

end ScOpen
