import ScOpen.ExpressionTrees
import ScOpen.ProgramLogic
import ScOpen.ScopedMemory

/-!
# Statements of scripts

An expression of one token has the value of the token, wherever it stands in front of something that
is no operator. An assignment of such a value is a statement of structured programs.
-/

namespace ScOpen

namespace Expression

section

variable {σ : Type}

end

end Expression

open Expression (Operand isOperator)

variable (L : ScriptLibrary)

/-! ## Operands -/

theorem operand_not_scanned (o : Operand) : o.token.type.isScanned = false := by
  have ho := o.isOperand
  cases htype : o.token.type <;> rw [htype] at ho <;> first | rfl | cases ho

def ScriptLibrary.readText (i : ℕ) (t : Token) (user : Option ScriptState) : Bytes :=
  if t.type = .variable_ then L.evaluateToken i t.text user else t.text

def operandExpr (i : ℕ) (o : Operand) : Expr (Option ScriptState) where
  tokens := [o.token]
  neutral := .token (operand_not_scanned o) .nil
  eval user := some (L.readText (i + 1) o.token user, user)

variable {L} {tokens : List Token} {i : ℕ}

structure NameToken where
  token : Token
  names : ScriptLibrary.Names token.type

theorem NameToken.not_scanned (t : NameToken) : t.token.type.isScanned = false := by
  rcases t.names with h | h
  all_goals
    rw [h]
    rfl

theorem let_isControl : TokenType.let_.isControl = false := rfl

def letStatement (L : ScriptLibrary) (i : ℕ) (name : NameToken) (o : Operand) :
    Statement (Option ScriptState) where
  place := i
  head := mark .let_ let_hasText
  args := [name.token, mark .assign assign_hasText, o.token]
  isControl := let_isControl
  neutral := .token rfl (.token name.not_scanned (.token rfl (.token (operand_not_scanned o) .nil)))
  run user :=
    let value := L.readText (i + 4) o.token user
    some (L.put .user (i + 4) (L.readText (i + 2) name.token user) value value.length user)

end ScOpen
