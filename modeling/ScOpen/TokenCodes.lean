import ScOpen.ProgramTokens

/-!
# The codes of the token types

A token type is kept in one byte, its value in the enumeration. The built-in functions, which have
no names here, lie between those of `TT_FUNCTION_MIN` and `TT_FUNCTION_MAX`.
-/

namespace ScOpen

def TokenType.code : TokenType → UInt8
  | .special => 1 | .nullToken => 2 | .endOfLine => 3 | .variable_ => 4 | .identifier => 5
  | .string => 6 | .constant => 7 | .operator => 8 | .number => 9 | .lineNumber => 10
  | .unknown => 17
  | .after_ => 18 | .break_ => 19 | .breakLoop => 20 | .begin_ => 21 | .continue_ => 22
  | .close_ => 23 | .define_ => 24 | .defineArray => 25 | .defineXref => 26 | .localVar => 27
  | .delete_ => 28 | .end_ => 29 | .else_ => 30 | .elseIf => 31 | .endIf => 32 | .endWhile => 33
  | .error_ => 34 | .exit_ => 35 | .for_ => 36 | .glet => 37 | .gosub => 38 | .goto_ => 39
  | .if_ => 40 | .label => 41 | .let_ => 42 | .next => 43 | .noError => 44 | .open_ => 45
  | .pragma => 46 | .print => 47 | .return_ => 48 | .send => 49 | .sendReply => 50
  | .setProgram => 51 | .sleep => 52 | .startTimer => 53 | .step => 54 | .stopTimer => 55
  | .then_ => 56 | .to_ => 57 | .while_ => 58
  | .equal => 59 | .esc => 60 | .assign => 61 | .bang => 62 | .colon => 63 | .greaterThan => 64
  | .greaterThanEqual => 65 | .lessThan => 66 | .lessThanEqual => 67 | .notEqual => 68
  | .bitwiseAnd => 69 | .closeParen => 70 | .comma => 71 | .divide => 72 | .logicalAnd => 73
  | .logicalOr => 74 | .minus => 75 | .unaryMinus => 76 | .mult => 77 | .openParen => 78
  | .bitwiseOr => 79 | .bitwiseXor => 80 | .unaryOnesComplement => 81 | .plus => 82
  | .unaryPlus => 83 | .period => 84 | .strEqual => 85 | .strNotEqual => 86 | .function_ => 88

abbrev TT_NULL_TOKEN : UInt8 := TokenType.nullToken.code
abbrev TT_END_OF_LINE : UInt8 := TokenType.endOfLine.code
abbrev TT_VARIABLE : UInt8 := TokenType.variable_.code
abbrev TT_IDENTIFIER : UInt8 := TokenType.identifier.code
abbrev TT_STRING : UInt8 := TokenType.string.code
abbrev TT_CONSTANT : UInt8 := TokenType.constant.code
abbrev TT_NUMBER : UInt8 := TokenType.number.code
abbrev TT_LINE_NUMBER : UInt8 := TokenType.lineNumber.code
abbrev TT_COMMA : UInt8 := TokenType.comma.code
abbrev TT_ESC : UInt8 := TokenType.esc.code

/-- `TT_POUND_INCLUDE` to `TT_POUND_ENDIF`. -/
def IsDirective (type : UInt8) : Prop := 11 ≤ type ∧ type ≤ 15

instance : DecidablePred IsDirective := fun type =>
  inferInstanceAs (Decidable (11 ≤ type ∧ type ≤ 15))

abbrev TT_COMMENT : UInt8 := 16

end ScOpen
