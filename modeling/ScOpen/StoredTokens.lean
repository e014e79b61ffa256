import ScOpen.IntegerValues
import ScOpen.Layouts
import ScOpen.MemoryBytes
import ScOpen.TokenCodes

/-!
# Storing the tokens of a program

`read_it()` takes the tokens of a source one after another and appends them to one array of bytes. A
token is its type alone, its type and a text that a NUL ends, or its type, a length and a text. Here
it is without the preprocessor: no directives, and no name that a macro defines. The array is
counted in 32 bits, which it is taken to fit into.
-/

namespace ScOpen

/-- The types whose text a NUL ends. -/
def IsTerminated (type : UInt8) : Prop :=
  type = TT_NUMBER ∨ type = TT_CONSTANT ∨ type = TT_IDENTIFIER ∨ type = TT_VARIABLE ∨
    type = TT_LINE_NUMBER

instance : DecidablePred IsTerminated := fun type =>
  inferInstanceAs (Decidable (type = TT_NUMBER ∨ type = TT_CONSTANT ∨ type = TT_IDENTIFIER ∨
    type = TT_VARIABLE ∨ type = TT_LINE_NUMBER))

/-- A token of `get_token()`. It gives no line numbers, and of the texts only those of strings and
comments may have NUL bytes. -/
structure Lexeme where
  type : UInt8
  text : Bytes
  no_directive : ¬ IsDirective type
  no_line_number : type ≠ TT_LINE_NUMBER
  no_zero : IsTerminated type → 0 ∉ text
  fits : text.length < 2 ^ 32

structure ReadState where
  program : Bytes
  lineNumber : ℕ
  esc : Bool

def ReadState.save (s : ReadState) (bytes : Bytes) : ReadState :=
  { s with program := s.program ++ bytes }

/-- `sprintf()` with `"%s:%d"`. -/
def lineNumberText (file : Bytes) (lineNumber : ℕ) : Bytes :=
  cString file ++ cstr ":" ++ intText (Int.bmod lineNumber (2 ^ 32))

def newLines (text : Bytes) : ℕ := (cString text).count (chr '\n')

section

variable (file : Bytes) (skip : Bool)

/-- One turn of the loop of `read_it()`; `skip` is what `skip_token('G')` returns. -/
def readToken (s : ReadState) (t : Lexeme) : ReadState :=
  if s.esc ∧ t.type = TT_END_OF_LINE then { s with lineNumber := s.lineNumber + 1, esc := false }
  else if t.type = TT_ESC then { s with esc := true }
  else
    let s := { s with
      lineNumber := if t.type = TT_STRING ∨ t.type = TT_COMMENT then s.lineNumber + newLines t.text
        else s.lineNumber
      esc := false }
    if t.type = TT_NUMBER ∨ t.type = TT_CONSTANT ∨ t.type = TT_VARIABLE ∨
        t.type = TT_IDENTIFIER then
      if skip then s else (s.save [t.type]).save (t.text ++ [0])
    else if t.type = TT_END_OF_LINE then
      if skip then s
      else
        let s := s.save [t.type]
        if t.text = cstr ";" then s
        else
          let s := { s with lineNumber := s.lineNumber + 1 }
          (s.save [TT_LINE_NUMBER]).save (lineNumberText file s.lineNumber ++ [0])
    else if t.type = TT_STRING then
      if skip then s
      else ((s.save [t.type]).save (leBytes 4 t.text.length)).save t.text
    else if t.type = TT_COMMENT then s
    else if skip then s
    else s.save [t.type]

def readTokens : List Lexeme → ReadState → ReadState
  | [], s => s
  | t :: ts, s =>
      if t.type = TT_NULL_TOKEN then s else readTokens ts (readToken file skip s t)

def readIt (tokens : List Lexeme) : Bytes :=
  let s : ReadState := ⟨[], 1, false⟩
  let s := (s.save [TT_LINE_NUMBER]).save (lineNumberText file 1 ++ [0])
  (readTokens file skip tokens s).program

end

/-! ## What is stored -/

structure StoredToken where
  type : UInt8
  text : Bytes
  no_zero : IsTerminated type → 0 ∉ text
  fits : type = TT_STRING → text.length < 2 ^ 32
  bare : ¬ IsTerminated type → type ≠ TT_STRING → text = []

def StoredToken.bytes (t : StoredToken) : Bytes :=
  if IsTerminated t.type then t.type :: (t.text ++ [0])
  else if t.type = TT_STRING then t.type :: (leBytes 4 t.text.length ++ t.text)
  else [t.type]

/-- A token keeps its text if its type has one. -/
def Lexeme.stored (t : Lexeme) : StoredToken where
  type := t.type
  text := if IsTerminated t.type ∨ t.type = TT_STRING then t.text else []
  no_zero h := by
    rw [if_pos (.inl h)]
    exact t.no_zero h
  fits h := by
    rw [if_pos (.inr h)]
    exact t.fits
  bare h hstring := if_neg (not_or.2 ⟨h, hstring⟩)

theorem zero_notMem_lineNumberText (file : Bytes) (n : ℕ) : 0 ∉ lineNumberText file n := by
  have hdecimal : ∀ k, (0 : UInt8) ∉ decimal k := by
    intro k h
    have hdigit := isDigit_of_mem_decimal h
    revert hdigit
    decide
  have hint : (0 : UInt8) ∉ intText (Int.bmod n (2 ^ 32)) := by
    rw [intText]
    split_ifs
    · rw [List.mem_cons, not_or]
      exact ⟨by decide, hdecimal _⟩
    · exact hdecimal _
  rw [lineNumberText, List.mem_append, List.mem_append, not_or, not_or]
  exact ⟨⟨zero_notMem_cString file, by decide⟩, hint⟩

def lineToken (file : Bytes) (n : ℕ) : StoredToken where
  type := TT_LINE_NUMBER
  text := lineNumberText file n
  no_zero _ := zero_notMem_lineNumberText file n
  fits h := absurd h (by decide)
  bare h := absurd (.inr (.inr (.inr (.inr rfl)))) h

section

variable (file : Bytes) (skip : Bool)

/-- What a token is stored as: nothing for an escape, an escaped end of line or a comment, and a
line number behind the end of a line. -/
def ReadState.stores (s : ReadState) (t : Lexeme) : List StoredToken :=
  if (s.esc ∧ t.type = TT_END_OF_LINE) ∨ t.type = TT_ESC ∨ t.type = TT_COMMENT ∨ skip then []
  else if t.type = TT_END_OF_LINE ∧ t.text ≠ cstr ";" then
    [t.stored, lineToken file (s.lineNumber + 1)]
  else [t.stored]

def storesAll : List Lexeme → ReadState → List StoredToken
  | [], _ => []
  | t :: ts, s =>
      if t.type = TT_NULL_TOKEN then []
      else s.stores file skip t ++ storesAll ts (readToken file skip s t)

def storedTokens (tokens : List Lexeme) : List StoredToken :=
  lineToken file 1 :: storesAll file skip tokens ⟨(lineToken file 1).bytes, 1, false⟩

end

end ScOpen
