import ScOpen.EvaluateToken
import ScOpen.Execute
import ScOpen.Expression
import ScOpen.IntegerArithmetic
import ScOpen.Labels
import ScOpen.VariableStore

/-!
# The interpreter on the store

The variables of a program are in the store, under the program that is the current one and the
label in force at the index. A token with references is evaluated with them, an expression reads its
tokens so, and the commands that assign put what the expression returns.
-/

namespace ScOpen

structure ScriptState where
  store : Store
  program : Bytes

/-- What is left to the outside: the library, the label table of the program, the operators and the
functions, which of these a token stands for, what a gosub does with its arguments, the commands
that assign nothing, an index that is not set, and how long is waited for an evaluation. There is no
state once the process has ended. -/
structure ScriptLibrary where
  store : StoreLibrary
  search : SortedArray.Search
  labels : List Label
  operations : Expression.Operations (Option ScriptState)
  functionAt : ℕ → ℕ
  takeArguments : List (TokenType × Bytes) → List Token → ℕ → Option ScriptState →
    ℕ × ℕ × Option ScriptState
  command : TokenType → Running (Option ScriptState) → CommandResult (Option ScriptState)
  staleIdx : Option ℕ
  fuel : ℕ

def VarType.varTypes : VarType → VarTypes
  | .user => .user
  | .userRef => .userRef
  | .userLocal => .userLocal

/-- The loop of `evaluate_token()`. -/
def evaluateRounds (variableGet : Bytes → Option Bytes) : ℕ → Bytes → Bytes
  | 0, token => token
  | n + 1, token =>
      match evaluateStep variableGet token with
      | .inl token => evaluateRounds variableGet n token
      | .inr token => token

namespace ScriptLibrary

variable (L : ScriptLibrary)

def position (vars : ScriptState) (i : ℕ) : Position := ⟨vars.program, labelGet L.search L.labels i⟩

def get (type : VarTypes) (i : ℕ) (name : Bytes) (user : Option ScriptState) : Option Bytes :=
  user.bind fun vars => variableGet L.store vars.store (L.position vars i) (cString name) type

def put (type : VarTypes) (i : ℕ) (name value : Bytes) (length : ℕ) (user : Option ScriptState) :
    Option ScriptState :=
  user.bind fun vars =>
    (variablePut L.store vars.store (L.position vars i) (cString name) value length type).map
      fun st => { vars with store := st }

def evaluateToken (i : ℕ) (text : Bytes) (user : Option ScriptState) : Bytes :=
  evaluateRounds (fun name => L.get .user i name user) L.fuel text

def exprToken (i : ℕ) (user : Option ScriptState) (t : Token) : Expression.ExprToken :=
  if t.type = .function_ then .function (L.functionAt i)
  else if t.type = .variable_ then
    .token ⟨.variable_, L.evaluateToken i t.text user, fun h => by cases h⟩
  else .token t

def exprTokens (user : Option ScriptState) : ℕ → List Token → List Expression.ExprToken
  | _, [] => []
  | i, t :: ts => L.exprToken (i + 1) user t :: exprTokens user (i + 1) ts

/-- `expression()` at an index. A failure of memory ends the process. -/
def expression (tokens : List Token) (i : ℕ) (user : Option ScriptState) :
    Expressed (Option ScriptState) :=
  let ahead := L.exprTokens user i (tokens.drop i)
  match Expression.expression L.operations L.fuel ⟨ahead, [], [], user⟩ with
  | .ok (iret, s) =>
      let consumed := ahead.length - s.ahead.length
      ⟨iret, s.token, consumed, i + consumed, s.user⟩
  | .error _ => ⟨1, [], 0, i, none⟩

def base : Language (Option ScriptState) where
  evaluateToken := L.evaluateToken
  expression := L.expression
  variableGet type := L.get type.varTypes
  variablePut type i name value := L.put type.varTypes i name value value.length
  label i name user := (L.get .label i name user).map Expression.scanUnsignedOrZero
  takeArguments := L.takeArguments
  command := L.command
  staleIdx := L.staleIdx

/-! ## The commands that assign -/

def Names (type : TokenType) : Prop := type = .identifier ∨ type = .variable_

instance (type : TokenType) : Decidable (Names type) := inferInstanceAs (Decidable (_ ∨ _))

def assignValue (type : VarTypes) (name : Bytes) (p : Running (Option ScriptState)) :
    CommandResult (Option ScriptState) :=
  let (iret, value, p) := evaluate L.base p
  if iret ≠ 0 then ⟨iret, false, p⟩
  else ⟨0, false, p.setUser (L.put type p.programIdx name value value.length p.env.user)⟩

/-- `let()`; `cmd_define()` is the same. -/
def assign (type : VarTypes) (p : Running (Option ScriptState)) :
    CommandResult (Option ScriptState) :=
  let (nameType, name, p) := getToken L.base p
  if Names nameType then
    let (sign, _, p) := getToken L.base p
    if sign = .assign then L.assignValue type name p else ⟨1, false, p⟩
  else ⟨1, false, p⟩

def cmdLet : Running (Option ScriptState) → CommandResult (Option ScriptState) := L.assign .user

def cmdGlet : Running (Option ScriptState) → CommandResult (Option ScriptState) :=
  L.assign .userGlobal

def cmdDefine : Running (Option ScriptState) → CommandResult (Option ScriptState) :=
  L.assign .userDefine

/-- `cmd_local_var()`: without a `=` the variable is empty, and the token is passed over. -/
def cmdLocalVar (p : Running (Option ScriptState)) : CommandResult (Option ScriptState) :=
  let (nameType, name, p) := getToken L.base p
  if Names nameType then
    let (sign, _, p) := getToken L.base p
    if sign = .assign then L.assignValue .userLocal name p
    else ⟨0, false, p.setUser (L.put .userLocal p.programIdx name [] 0 p.env.user)⟩
  else ⟨1, false, p⟩

def elementName (name : Bytes) (index : ℕ) : Bytes :=
  cString name ++ chr '[' :: (decimal index ++ [chr ']'])

/-- The loop of `cmd_define_array()`: the status, the number of elements and the program. There is
a comma for each of its turns but the last one. -/
def arrayLoop (name : Bytes) :
    ℕ → ℕ → Running (Option ScriptState) → ℕ × ℕ × Running (Option ScriptState)
  | 0, index, p => (0, index, p)
  | n + 1, index, p =>
      let (iret, value, p) := evaluate L.base p
      if iret ≠ 0 then (iret, index, p)
      else
        let p := p.setUser (L.put .userDefine p.programIdx (elementName name (index + 1)) value
          value.length p.env.user)
        let (sign, _, q) := getToken L.base p
        if sign = .comma then arrayLoop name n (index + 1) q
        else (0, index + 1, putProgramToken q)

/-- `cmd_define_array()`. The number of elements is put also when one of them fails. -/
def cmdDefineArray (p : Running (Option ScriptState)) : CommandResult (Option ScriptState) :=
  let (nameType, name, p) := getToken L.base p
  if Names nameType then
    let (sign, _, p) := getToken L.base p
    if sign = .assign then
      let (iret, index, p) := L.arrayLoop name (p.ahead.length + 1) 0 p
      ⟨iret, false, p.setUser
        (L.put .userDefine p.programIdx (elementName name 0) (decimal index) 0 p.env.user)⟩
    else ⟨1, false, p⟩
  else ⟨1, false, p⟩

def cmdDelete (p : Running (Option ScriptState)) : CommandResult (Option ScriptState) :=
  let (nameType, name, p) := getToken L.base p
  if Names nameType ∨ nameType = .string then
    ⟨0, false, p.setUser (p.env.user.bind fun vars =>
      (variableDelete L.store vars.store vars.program (cString name)).map
        fun st => { vars with store := st })⟩
  else ⟨1, false, p⟩

def undefinedProgram : Bytes := cstr "undefined"

def setProgram (name : Bytes) (user : Option ScriptState) : Option ScriptState :=
  user.map fun vars => { vars with program := cString name }

def cmdSetProgram (p : Running (Option ScriptState)) : CommandResult (Option ScriptState) :=
  let (type, text, p) := getToken L.base p
  let name := if type = .endOfLine then undefinedProgram else text
  let i := p.programIdx
  let before := (p.env.user.map ScriptState.program).getD []
  let user := setProgram name (L.put .sc i [] (cstr "INACTIVE") 0 p.env.user)
  match L.get .sc i (cstr "BEGIN") user with
  | none =>
      ⟨1, false, p.setUser (L.put .sc i [] (cstr "ACTIVE") 0 (setProgram before user))⟩
  | some value =>
      let start := Expression.scanUnsignedOrZero value
      ⟨0, false, Running.setUser (L.put .sc start [] (cstr "ACTIVE") 0 user)
        (setProgramTokenIdx start p)⟩

/-- The interpreter with the commands that are about variables. -/
def language : Language (Option ScriptState) :=
  { L.base with
    command := fun type p =>
      match type with
      | .let_ => L.cmdLet p
      | .glet => L.cmdGlet p
      | .define_ => L.cmdDefine p
      | .defineArray => L.cmdDefineArray p
      | .localVar => L.cmdLocalVar p
      | .delete_ => L.cmdDelete p
      | .setProgram => L.cmdSetProgram p
      | type => L.command type p }

end ScriptLibrary

end ScOpen
