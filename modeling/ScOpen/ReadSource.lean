import ScOpen.StoredTokens

/-!
# Reading a program with the preprocessor

`read_program()` empties the array of the tokens and has `read_it()` fill it again. The tokens of
the source, of the files that it includes and of the macros that it uses are appended as they come;
between an `#ifdef` and its `#endif` they may be skipped, which a flag of `skip_token()` says. A
preprocessing error ends the process.
-/

namespace ScOpen

abbrev TT_POUND_INCLUDE : UInt8 := 11
abbrev TT_POUND_DEFINE : UInt8 := 12
abbrev TT_POUND_IFDEF : UInt8 := 13
abbrev TT_POUND_ELSE : UInt8 := 14
abbrev TT_POUND_ENDIF : UInt8 := 15
abbrev TT_OPEN_PAREN : UInt8 := TokenType.openParen.code
abbrev TT_CLOSE_PAREN : UInt8 := TokenType.closeParen.code

abbrev Macros : Type := Bytes → Option Bytes

structure PpState where
  program : Bytes
  skipFlag : Bool
  macros : Macros

def PpState.save (s : PpState) (bytes : Bytes) : PpState := { s with program := s.program ++ bytes }

def PpState.saveLine (s : PpState) (file : Bytes) (lineNumber : ℕ) : PpState :=
  (s.save [TT_LINE_NUMBER]).save (lineNumberText file lineNumber ++ [0])

def PpState.put (s : PpState) (name value : Bytes) : PpState :=
  { s with macros := Function.update s.macros name (some value) }

/-- One call of `read_it()`. For the text of a macro nothing is written to the array `file`. -/
structure ReadCall where
  file : Option Bytes
  macroName : Bytes
  ppFlag : Bool
  lineNumber : ℕ
  esc : Bool
  source : Bytes

def bufrtrim (text : Bytes) : Bytes := ((cString text).reverse.dropWhile (· = chr ' ')).reverse

def macroArg (i : ℕ) : Bytes := cstr "#macro_arg[" ++ decimal i ++ cstr "]"

def includeStr (i : ℕ) : Bytes := cstr "#include[" ++ decimal i ++ cstr "]"

/-- The macro that an identifier stands for, with its value. Inside of another macro it may be one
of its arguments. -/
def macroOf (macroName text : Bytes) (macros : Macros) : Option (Bytes × Bytes) :=
  match macros (macroName ++ chr '-' :: text) with
  | some value => some (macroName ++ chr '-' :: text, value)
  | none => (macros text).map fun value => (text, value)

inductive ReadSwitch where
  | include_ (path : Bytes)
  | define_ (name : Bytes) (value : Option Bytes)
  | preprocess

structure ReadArgs where
  switches : List ReadSwitch
  file : Option Bytes

/-- The switches set variables, after all of those of earlier programs have been deleted. -/
def switchMacros : ℕ → List ReadSwitch → Macros → Option Macros
  | _, [], macros => some macros
  | num, .include_ path :: switches, macros =>
      if path = [] then none
      else switchMacros (num + 1) switches (Function.update macros (includeStr num) (some path))
  | num, .define_ name value :: switches, macros =>
      if name = [] then none
      else switchMacros num switches (Function.update macros name (some (value.getD [])))
  | num, .preprocess :: switches, macros => switchMacros num switches macros

end ScOpen
