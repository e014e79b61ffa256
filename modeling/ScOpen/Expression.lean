import ScOpen.IntegerValues

/-!
# Expressions

`expression()` reads an expression with a recursive descent that only pushes what it reads on a
queue, and then solves the queue from its end. The operators and the built-in functions are
parameters: their arithmetic may be in floating point, and functions may ask the system.
-/

namespace ScOpen.Expression

/-- Why a computation has not returned: it needs more fuel, or `FATAL()` has ended the process. -/
inductive Stop where
  | fuel | fatal

/-- A type of token: any type but those of the built-in functions, a function by its place between
`TT_FUNCTION_MIN` and `TT_FUNCTION_MAX`, and `TT_FUNCTION`, which is in the queue only. -/
inductive ExprType where
  | token (type : TokenType)
  | function (place : ℕ)
  | functionEnd
  deriving DecidableEq

/-- A token of the program, the value of a variable in its place. -/
inductive ExprToken where
  | token (t : Token)
  | function (place : ℕ)

structure Entry where
  type : ExprType
  text : Bytes

def ExprToken.entry : ExprToken → Entry
  | .token t => ⟨.token t.type, t.text⟩
  | .function place => ⟨.function place, []⟩

def MAX_Q : ℕ := 500

/-- `is_operator()`. The unary operators that it has are no operators between two terms. -/
def isOperator : ExprType → Bool
  | .token .plus | .token .minus | .token .unaryMinus | .token .unaryPlus | .token .mult
  | .token .divide | .token .logicalAnd | .token .logicalOr | .token .bitwiseAnd
  | .token .bitwiseOr | .token .bitwiseXor | .token .lessThan | .token .greaterThan
  | .token .equal | .token .strEqual | .token .strNotEqual | .token .lessThanEqual
  | .token .greaterThanEqual | .token .notEqual | .token .colon | .token .unaryOnesComplement
  | .token .period => true
  | _ => false

/-- The types that the functions give to their values. -/
inductive ValueType where
  | number | string | identifier

def ValueType.type : ValueType → TokenType
  | .number => .number
  | .string => .string
  | .identifier => .identifier

/-- What a function does: its status, the value in `token`, whether the value is pushed and with
which type, and the variables. -/
structure FunctionResult (σ : Type) where
  iret : ℕ
  token : Bytes
  pushed : Option ValueType
  user : σ

/-- The operators and the functions. The first argument of an operator is the one on its right;
`none` is a failure. A function is given the number of commas between its arguments, and its
arguments from the last one on. -/
structure Operations (σ : Type) where
  addSubMultDiv : TokenType → Bytes → Bytes → Option Bytes
  logicalBitwise : TokenType → Bytes → Bytes → Option Bytes
  onesComplement : Bytes → Option Bytes
  concat : Bytes → Bytes → Bytes → Bytes
  strCmp : TokenType → Bytes → Bytes → Bytes
  function : ℕ → ℕ → Bytes → Bytes → Bytes → σ → FunctionResult σ

section

variable {σ : Type} (ops : Operations σ)

/-- `add_sub_mult_div()` as it is called: it takes and leaves strings. -/
def Operations.arithmetic (type : TokenType) (arg1 arg2 : Bytes) : Option Bytes :=
  (ops.addSubMultDiv type (cString arg1) (cString arg2)).map cString

def Operations.unaryMinus (arg : Bytes) : Option Bytes := ops.arithmetic .mult arg (cstr "-1")

/-- An operator between two terms, `arg2` on its left. -/
def Operations.binary (type : ExprType) (arg1 arg2 : Bytes) : Option Bytes :=
  match type with
  | .token type =>
      match type with
      | .plus | .minus | .mult | .divide => ops.arithmetic type arg1 arg2
      | .period => some (ops.concat arg1 arg2 [])
      | .colon => some (ops.concat arg1 arg2 [chr ' '])
      | .logicalAnd | .logicalOr | .bitwiseAnd | .bitwiseOr | .bitwiseXor | .greaterThan
      | .lessThan | .equal | .notEqual | .lessThanEqual | .greaterThanEqual =>
          ops.logicalBitwise type arg1 arg2
      | .strEqual | .strNotEqual => some (ops.strCmp type arg1 arg2)
      | _ => none
  | _ => none

/-- The tokens that are left to read, the queue from its end on, the buffer that is handed
around, and the variables. -/
structure Evaluation (σ : Type) where
  ahead : List ExprToken
  queue : List Entry
  token : Bytes
  user : σ

variable {σ : Type}

/-- A push on the queue: the process ends when it is full. -/
def push (queue : List Entry) (e : Entry) : Except Stop (List Entry) :=
  if MAX_Q ≤ queue.length then .error .fatal else .ok (e :: queue)

def qToken (e : Entry) (s : Evaluation σ) : Except Stop (Evaluation σ) :=
  (push s.queue e).map fun queue => { s with queue := queue }

def dqToken (s : Evaluation σ) : Entry × Evaluation σ :=
  match s.queue with
  | [] => (⟨.token .nullToken, []⟩, s)
  | e :: queue => (e, { s with queue := queue })

/-- `get_program_token()` into the buffer that is handed around. -/
def nextToken (s : Evaluation σ) : ExprType × Evaluation σ :=
  match s.ahead with
  | [] => (.token .nullToken, { s with token := [] })
  | t :: ahead => (t.entry.type, { s with ahead := ahead, token := t.entry.text })

/-! ## Reading -/

mutual

def expr : ℕ → Evaluation σ → Except Stop (ℕ × Evaluation σ)
  | 0, _ => .error .fuel
  | n + 1, s => do
      let (iret, s) ← term n s
      if iret ≠ 0 then return (iret, s) else exprLoop n s

def exprLoop : ℕ → Evaluation σ → Except Stop (ℕ × Evaluation σ)
  | 0, _ => .error .fuel
  | n + 1, s => do
      let (type, s') := nextToken s
      if isOperator type then
        let s' ← qToken ⟨type, s'.token⟩ s'
        let (iret, s') ← term n s'
        if iret ≠ 0 then return (iret, s') else exprLoop n s'
      else return (0, { s' with ahead := s.ahead })

/-- The status of the term after a unary operator is dropped. -/
def term : ℕ → Evaluation σ → Except Stop (ℕ × Evaluation σ)
  | 0, _ => .error .fuel
  | n + 1, s =>
      let (type, s) := nextToken s
      let unary := fun type => do
        let s ← qToken ⟨.token type, s.token⟩ s
        let (_, s) ← term n s
        return (0, s)
      match type with
      | .function _ => do func n (← qToken ⟨type, s.token⟩ s)
      | .token .variable_ | .token .identifier | .token .string | .token .constant
      | .token .number => do return (0, ← qToken ⟨type, s.token⟩ s)
      | .token .minus => unary .unaryMinus
      | .token .plus => unary .unaryPlus
      | .token .unaryOnesComplement => unary .unaryOnesComplement
      | .token .openParen => do
          let (iret, s) ← expr n (← qToken ⟨type, s.token⟩ s)
          if iret ≠ 0 then return (iret, s)
          else
            let (type, s) := nextToken s
            if type = .token .closeParen then return (0, ← qToken ⟨type, s.token⟩ s)
            else return (1, s)
      | _ => return (1, s)

def func : ℕ → Evaluation σ → Except Stop (ℕ × Evaluation σ)
  | 0, _ => .error .fuel
  | n + 1, s => do
      let (type, s) := nextToken s
      if type = .token .openParen then
        let (type, s') := nextToken s
        if type = .token .closeParen then return (0, ← qToken ⟨.functionEnd, s'.token⟩ s')
        else
          let (iret, s) ← expr n { s' with ahead := s.ahead }
          if iret ≠ 0 then return (iret, s) else funcLoop n s
      else return (1, s)

def funcLoop : ℕ → Evaluation σ → Except Stop (ℕ × Evaluation σ)
  | 0, _ => .error .fuel
  | n + 1, s => do
      let (type, s) := nextToken s
      if type = .token .closeParen then return (0, ← qToken ⟨.functionEnd, s.token⟩ s)
      else if type = .token .comma then
        let (iret, s) ← expr n (← qToken ⟨type, s.token⟩ s)
        if iret ≠ 0 then return (iret, s) else funcLoop n s
      else return (1, s)

end

/-! ## Solving -/

variable (ops : Operations σ)

/-- The unary operator in front of the second argument of `solve()`: only one is taken. -/
def takeUnary (arg : Entry) (s : Evaluation σ) : Except Stop (ℕ × Entry × Evaluation σ) :=
  let (op, s) := dqToken s
  match op.type with
  | .token .unaryMinus =>
      match ops.unaryMinus arg.text with
      | none => .ok (1, arg, { s with token := [] })
      | some token => .ok (0, ⟨arg.type, token⟩, { s with token := token })
  | .token .unaryOnesComplement =>
      match ops.onesComplement arg.text with
      | none => .ok (1, arg, s)
      | some text => .ok (0, ⟨arg.type, text⟩, s)
  | .token .unaryPlus => .ok (0, arg, s)
  | _ => (qToken op s).map fun s => (0, arg, s)

mutual

def solve : ℕ → Evaluation σ → Except Stop (ℕ × Evaluation σ)
  | 0, _ => .error .fuel
  | n + 1, s =>
      if s.queue.isEmpty then return (0, s)
      else do
        let (arg1, s) := dqToken s
        let (iret, arg1, s) ← firstArg n arg1 s
        if iret ≠ 0 then return (iret, s) else solveArg n arg1 s

def solveArg : ℕ → Entry → Evaluation σ → Except Stop (ℕ × Evaluation σ)
  | 0, _, _ => .error .fuel
  | n + 1, arg1, s =>
      let (op, s) := dqToken s
      match op.type with
      | .token .nullToken => solve n { s with token := arg1.text }
      | .token .openParen => do return (0, ← qToken arg1 s)
      | .token .comma => do return (0, ← qToken arg1 (← qToken op s))
      | .function _ => do return (0, ← qToken arg1 (← qToken op s))
      | .token .unaryMinus =>
          match ops.unaryMinus arg1.text with
          | none => return (1, { s with token := [] })
          | some token => do solve n (← qToken ⟨arg1.type, token⟩ { s with token := token })
      | .token .unaryOnesComplement =>
          match ops.onesComplement arg1.text with
          | none => return (1, s)
          | some text => do solve n (← qToken ⟨arg1.type, text⟩ s)
      | .token .unaryPlus => do solve n (← qToken arg1 s)
      | _ => do
          let (arg2, s) := dqToken s
          if arg2.type = .token .nullToken then solve n s
          else
            let (iret, arg2, s) ← secondArg n arg2 s
            if iret ≠ 0 then return (iret, s)
            else
              let (iret, arg2, s) ← takeUnary ops arg2 s
              if iret ≠ 0 then return (iret, s)
              else
                match ops.binary op.type arg1.text arg2.text with
                | none => return (1, s)
                | some token =>
                    solve n (← qToken ⟨arg1.type, token⟩ { s with token := token })

def firstArg : ℕ → Entry → Evaluation σ → Except Stop (ℕ × Entry × Evaluation σ)
  | 0, _, _ => .error .fuel
  | n + 1, arg, s =>
      if arg.type = .token .closeParen then do
        let (iret, s) ← solve n s
        if iret ≠ 0 then return (iret, arg, s) else return (0, dqToken s)
      else if arg.type = .functionEnd then do
        let (iret, s) ← solveFunction n s
        if iret ≠ 0 then return (iret, arg, s) else return (0, dqToken s)
      else return (0, arg, s)

def secondArg : ℕ → Entry → Evaluation σ → Except Stop (ℕ × Entry × Evaluation σ)
  | 0, _, _ => .error .fuel
  | n + 1, arg, s => do
      let (iret, arg, s) ←
        if arg.type = .functionEnd then do
          let (iret, s) ← solveFunction n s
          if iret ≠ 0 then pure (iret, arg, s) else pure (0, dqToken s)
        else pure (0, arg, s)
      if iret ≠ 0 then return (iret, arg, s)
      else if arg.type = .token .closeParen then
        let (iret, s) ← solve n s
        if iret ≠ 0 then return (iret, arg, s) else return (0, dqToken s)
      else return (0, arg, s)

def solveFunction : ℕ → Evaluation σ → Except Stop (ℕ × Evaluation σ)
  | 0, _ => .error .fuel
  | n + 1, s => functionArgs n 0 [] [] [] s

def functionArgs :
    ℕ → ℕ → Bytes → Bytes → Bytes → Evaluation σ → Except Stop (ℕ × Evaluation σ)
  | 0, _, _, _, _, _ => .error .fuel
  | n + 1, iArg, arg0, arg1, arg2, s => do
      let (e, s) := dqToken s
      let s := { s with token := e.text }
      match e.type with
      | .function place =>
          let r := ops.function place iArg arg0 arg1 arg2 s.user
          let s := { s with token := r.token, user := r.user }
          match r.pushed with
          | none => return (r.iret, s)
          | some type => return (r.iret, ← qToken ⟨.token type.type, r.token⟩ s)
      | .token .comma => functionArgs n (iArg + 1) arg0 arg1 arg2 s
      | _ =>
          let (iret, s) ← solve n (← qToken e s)
          if iret ≠ 0 then return (iret, s)
          else
            let (e, s) := dqToken s
            let s := { s with token := e.text }
            match iArg with
            | 0 => functionArgs n iArg e.text arg1 arg2 s
            | 1 => functionArgs n iArg arg0 e.text arg2 s
            | 2 => functionArgs n iArg arg0 arg1 e.text s
            | _ => return (1, s)

end

def expression (n : ℕ) (s : Evaluation σ) : Except Stop (ℕ × Evaluation σ) := do
  let (iret, s) ← expr n { s with queue := [] }
  if iret ≠ 0 then return (iret, s) else solve ops n s

end

end ScOpen.Expression
