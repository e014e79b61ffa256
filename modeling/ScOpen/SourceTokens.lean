import ScOpen.ReadMachine
import ScOpen.StoredReads

/-!
# Sources without directives and macros

Where no token of a source is a directive and no identifier stands for a macro, `read_it()` with its
preprocessor stores what it stores without it. The interpreter then reads the tokens of the source
again, as the lexer has found them, apart from escapes and comments, and with a line number behind
each end of a line.
-/

namespace ScOpen

namespace Reading

section

variable {lib : PpLibrary} {file : Bytes} {ppFlag skip : Bool} {macros : Macros} {t : Lexeme}

end

end Reading

/-! ## Reading the tokens back -/

end ScOpen
