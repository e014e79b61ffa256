import ScOpen.CTypes

/-!
# The program as tokens

A program is kept as a sequence of tokens with an index into it. Tokens of a few types have a
text, all others are their type alone. What lies behind a program (its variables and
everything else a command may touch) is an environment of any type; evaluating a variable token
is a parameter.
-/

namespace ScOpen

/-- The token types of the statement language, without the built-in functions. -/
inductive TokenType where
  | special | nullToken | endOfLine | variable_ | identifier | string | constant | operator
  | number | lineNumber | unknown
  | after_ | break_ | breakLoop | begin_ | continue_ | close_ | define_ | defineArray
  | defineXref | localVar | delete_ | end_ | else_ | elseIf | endIf | endWhile | error_ | exit_
  | for_ | glet | gosub | goto_ | if_ | label | let_ | next | noError | open_ | pragma | print
  | return_ | send | sendReply | setProgram | sleep | startTimer | step | stopTimer | then_
  | to_ | while_
  | equal | esc | assign | bang | colon | greaterThan | greaterThanEqual | lessThan
  | lessThanEqual | notEqual | bitwiseAnd | closeParen | comma | divide | logicalAnd
  | logicalOr | minus | unaryMinus | mult | openParen | bitwiseOr | bitwiseXor
  | unaryOnesComplement | plus | unaryPlus | period | strEqual | strNotEqual | function_
  deriving DecidableEq

def TokenType.hasText : TokenType → Bool
  | .number | .constant | .identifier | .variable_ | .lineNumber | .string => true
  | _ => false

structure Token where
  type : TokenType
  text : Bytes
  text_of_type : type.hasText = false → text = []

def mark (type : TokenType) (_h : type.hasText = false) : Token := ⟨type, [], fun _ => rfl⟩

def word (text : Bytes) : Token := ⟨.identifier, text, fun h => by cases h⟩

theorem period_hasText : TokenType.period.hasText = false := rfl

theorem lessThan_hasText : TokenType.lessThan.hasText = false := rfl

theorem greaterThan_hasText : TokenType.greaterThan.hasText = false := rfl

theorem endOfLine_hasText : TokenType.endOfLine.hasText = false := rfl

theorem for_hasText : TokenType.for_.hasText = false := rfl

theorem next_hasText : TokenType.next.hasText = false := rfl

theorem gosub_hasText : TokenType.gosub.hasText = false := rfl

theorem if_hasText : TokenType.if_.hasText = false := rfl

theorem elseIf_hasText : TokenType.elseIf.hasText = false := rfl

theorem endIf_hasText : TokenType.endIf.hasText = false := rfl

theorem let_hasText : TokenType.let_.hasText = false := rfl

theorem closeParen_hasText : TokenType.closeParen.hasText = false := rfl

theorem comma_hasText : TokenType.comma.hasText = false := rfl

theorem assign_hasText : TokenType.assign.hasText = false := rfl

/-- The tokens of a program, `program_idx` and `saved_program_idx`, counted in tokens. -/
structure Program (σ : Type) where
  tokens : List Token
  programIdx : ℕ
  savedProgramIdx : ℕ
  env : σ

section

variable {σ : Type}

def getProgramToken (evaluateToken : Bytes → σ → Bytes × σ) (p : Program σ) :
    TokenType × Bytes × Program σ :=
  match p.tokens[p.programIdx]? with
  | none => (.nullToken, [], { p with savedProgramIdx := p.programIdx })
  | some token =>
      let p := { p with
        savedProgramIdx := p.programIdx
        programIdx := p.programIdx + 1 }
      if token.type = .variable_ then
        let (text, env) := evaluateToken token.text p.env
        (token.type, text, { p with env := env })
      else (token.type, token.text, p)

def putProgramToken (p : Program σ) : Program σ := { p with programIdx := p.savedProgramIdx }

def setProgramTokenIdx (idx : ℕ) (p : Program σ) : Program σ := { p with programIdx := idx }

end

end ScOpen
