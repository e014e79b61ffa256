import ScOpen.Expression
import Mathlib.Order.Filter.AtTopBot.Basic

/-!
# Parse trees of expressions

A unary operator belongs to the term behind it, and operators between terms group from the right.
Reading the tokens of a tree pushes its tokens in their order, with a mark at the end of each call.
-/

namespace ScOpen.Expression

open Filter

def isOperand : TokenType → Bool
  | .variable_ | .identifier | .string | .constant | .number => true
  | _ => false

def isBinary : TokenType → Bool
  | .plus | .minus | .mult | .divide | .logicalAnd | .logicalOr | .bitwiseAnd | .bitwiseOr
  | .bitwiseXor | .lessThan | .greaterThan | .equal | .strEqual | .strNotEqual | .lessThanEqual
  | .greaterThanEqual | .notEqual | .colon | .period => true
  | _ => false

theorem hasText_of_isBinary {type : TokenType} (h : isBinary type = true) :
    type.hasText = false := by
  cases type <;> first | rfl | cases h

theorem isOperator_of_isBinary {type : TokenType} (h : isBinary type = true) :
    isOperator (.token type) = true := by
  cases type <;> first | rfl | cases h

structure Operand where
  token : Token
  isOperand : isOperand token.type = true

structure BinaryOp where
  type : TokenType
  isBinary : isBinary type = true

inductive UnaryOp where
  | minus | plus | onesComplement

theorem openParen_hasText : TokenType.openParen.hasText = false := rfl

theorem minus_hasText : TokenType.minus.hasText = false := rfl

theorem plus_hasText : TokenType.plus.hasText = false := rfl

theorem unaryOnesComplement_hasText : TokenType.unaryOnesComplement.hasText = false := rfl

def openParen : ExprToken := .token (mark .openParen openParen_hasText)

def closeParen : ExprToken := .token (mark .closeParen closeParen_hasText)

def comma : ExprToken := .token (mark .comma comma_hasText)

def BinaryOp.token (op : BinaryOp) : ExprToken :=
  .token (mark op.type (hasText_of_isBinary op.isBinary))

def UnaryOp.token : UnaryOp → ExprToken
  | .minus => .token (mark .minus minus_hasText)
  | .plus => .token (mark .plus plus_hasText)
  | .onesComplement => .token (mark .unaryOnesComplement unaryOnesComplement_hasText)

def UnaryOp.queued : UnaryOp → TokenType
  | .minus => .unaryMinus
  | .plus => .unaryPlus
  | .onesComplement => .unaryOnesComplement

mutual

inductive Term where
  | operand (o : Operand)
  | unary (op : UnaryOp) (t : Term)
  | paren (e : Exp)
  | call0 (place : ℕ)
  | call (place : ℕ) (args : Args)

inductive Exp where
  | last (t : Term)
  | binary (t : Term) (op : BinaryOp) (e : Exp)

inductive Args where
  | one (e : Exp)
  | cons (e : Exp) (args : Args)

end

mutual

def Term.tokens : Term → List ExprToken
  | .operand o => [.token o.token]
  | .unary op t => op.token :: t.tokens
  | .paren e => openParen :: (e.tokens ++ [closeParen])
  | .call0 place => [.function place, openParen, closeParen]
  | .call place args => .function place :: openParen :: (args.tokens ++ [closeParen])

def Exp.tokens : Exp → List ExprToken
  | .last t => t.tokens
  | .binary t op e => t.tokens ++ op.token :: e.tokens

def Args.tokens : Args → List ExprToken
  | .one e => e.tokens
  | .cons e args => e.tokens ++ comma :: args.tokens

end

theorem Term.head_tokens (t : Term) :
    ∃ u ts, t.tokens = u :: ts ∧ u.entry.type ≠ .token .closeParen := by
  cases t with
  | operand o =>
      refine ⟨_, _, rfl, fun h => ?_⟩
      have htype : o.token.type = .closeParen := ExprType.token.inj h
      have ho := o.isOperand
      rw [htype] at ho
      cases ho
  | unary op t =>
      refine ⟨_, _, rfl, fun h => ?_⟩
      cases op <;> cases h
  | paren e => exact ⟨_, _, rfl, fun h => by cases h⟩
  | call0 place => exact ⟨_, _, rfl, fun h => by cases h⟩
  | call place args => exact ⟨_, _, rfl, fun h => by cases h⟩

theorem Exp.head_tokens (e : Exp) :
    ∃ u ts, e.tokens = u :: ts ∧ u.entry.type ≠ .token .closeParen := by
  cases e with
  | last t => exact t.head_tokens
  | binary t op e =>
      obtain ⟨u, ts, htokens, hu⟩ := t.head_tokens
      exact ⟨u, ts ++ op.token :: e.tokens, by rw [Exp.tokens, htokens]; rfl, hu⟩

theorem Args.head_tokens (args : Args) :
    ∃ u ts, args.tokens = u :: ts ∧ u.entry.type ≠ .token .closeParen := by
  cases args with
  | one e => exact e.head_tokens
  | cons e args =>
      obtain ⟨u, ts, htokens, hu⟩ := e.head_tokens
      exact ⟨u, ts ++ comma :: args.tokens, by rw [Args.tokens, htokens]; rfl, hu⟩

/-- An entry of the queue without a text. -/
def bare (type : ExprType) : Entry := ⟨type, []⟩

mutual

def Term.queued : Term → List Entry
  | .operand o => [⟨.token o.token.type, o.token.text⟩]
  | .unary op t => bare (.token op.queued) :: t.queued
  | .paren e => bare (.token .openParen) :: (e.queued ++ [bare (.token .closeParen)])
  | .call0 place => [bare (.function place), bare .functionEnd]
  | .call place args => bare (.function place) :: (args.queued ++ [bare .functionEnd])

def Exp.queued : Exp → List Entry
  | .last t => t.queued
  | .binary t op e => t.queued ++ bare (.token op.type) :: e.queued

def Args.queued : Args → List Entry
  | .one e => e.queued
  | .cons e args => e.queued ++ bare (.token .comma) :: args.queued

end

/-! ## Pushing -/

def pushAll (es : List Entry) (queue : List Entry) : Except Stop (List Entry) :=
  es.foldlM push queue

theorem pushAll_append (es fs queue : List Entry) :
    pushAll (es ++ fs) queue = pushAll es queue >>= pushAll fs := List.foldlM_append

/-- Within the capacity, all entries come to stand on the queue. -/
theorem pushAll_eq {es queue : List Entry} (h : queue.length + es.length ≤ MAX_Q) :
    pushAll es queue = .ok (es.reverse ++ queue) := by
  induction es generalizing queue with
  | nil => rfl
  | cons e es ih =>
      rw [List.length_cons] at h
      have hroom : ¬MAX_Q ≤ queue.length := by omega
      have htail : (e :: queue).length + es.length ≤ MAX_Q := by
        rw [List.length_cons]
        omega
      have hpush : push queue e = .ok (e :: queue) := if_neg hroom
      calc pushAll (e :: es) queue = pushAll es (e :: queue) := by
            simp only [pushAll, List.foldlM_cons, hpush]
            rfl
        _ = .ok (es.reverse ++ (e :: queue)) := ih htail
        _ = .ok ((e :: es).reverse ++ queue) := by simp

/-! ## Reading -/

section

variable {σ : Type}

def loads (iret : ℕ) (es : List Entry) (rest : List ExprToken) (token : Bytes) (user : σ)
    (queue : List Entry) : Except Stop (ℕ × Evaluation σ) :=
  (pushAll es queue).map fun queue => (iret, ⟨rest, queue, token, user⟩)

abbrev Reader (σ : Type) := ℕ → Evaluation σ → Except Stop (ℕ × Evaluation σ)

/-- With enough fuel, a reader takes the tokens up to the rest, pushes entries and returns a
status. -/
def Reads (reader : Reader σ) (ts : List ExprToken) (iret : ℕ) (es : List Entry)
    (rest : List ExprToken) : Prop :=
  ∀ token user, ∃ token', ∀ᶠ n in atTop, ∀ queue,
    reader n ⟨ts, queue, token, user⟩ = loads iret es rest token' user queue

def andThen (reader next : Reader σ) : Reader σ := fun n s => do
  let (iret, s) ← reader n s
  if iret ≠ 0 then return (iret, s) else next n s

theorem eventually_of_succ {p : ℕ → Prop} (h : ∀ᶠ n in atTop, p (n + 1)) :
    ∀ᶠ n in atTop, p n := by
  rw [← map_add_atTop_eq_nat 1]
  exact h

variable {reader next : Reader σ} {ts ts' rest rest' : List ExprToken} {es fs : List Entry}
  {iret : ℕ}

theorem Reads.andThen (h : Reads reader ts 0 es rest) (hnext : Reads next rest iret fs rest') :
    Reads (andThen reader next) ts iret (es ++ fs) rest' := by
  intro token user
  obtain ⟨token₁, h₁⟩ := h token user
  obtain ⟨token₂, h₂⟩ := hnext token₁ user
  refine ⟨token₂, ?_⟩
  filter_upwards [h₁, h₂] with n hn₁ hn₂
  intro queue
  rw [Expression.andThen, hn₁, loads, loads, pushAll_append]
  cases pushAll es queue with
  | error stop => rfl
  | ok queue => exact hn₂ queue

theorem Reads.andThen_fails (h : Reads reader ts iret es rest) (hiret : iret ≠ 0) :
    Reads (Expression.andThen reader next) ts iret es rest := by
  intro token user
  obtain ⟨token', h⟩ := h token user
  refine ⟨token', ?_⟩
  filter_upwards [h] with n hn
  intro queue
  rw [Expression.andThen, hn, loads]
  cases pushAll es queue with
  | error stop => rfl
  | ok queue => exact if_pos hiret

/-- A reader that goes on with another one. -/
theorem Reads.of_step (text : Bytes → Bytes) (h : Reads next ts' iret es rest)
    (hstep : ∀ n queue token user, reader (n + 1) ⟨ts, queue, token, user⟩ =
      next n ⟨ts', queue, text token, user⟩) : Reads reader ts iret es rest := by
  intro token user
  obtain ⟨token', h⟩ := h (text token) user
  refine ⟨token', eventually_of_succ ?_⟩
  filter_upwards [h] with n hn
  intro queue
  rw [hstep, hn]

/-- A reader that pushes an entry and goes on with another one. -/
theorem Reads.of_push (text : Bytes) {e : Entry} (h : Reads next ts' iret es rest)
    (hstep : ∀ n queue token user, reader (n + 1) ⟨ts, queue, token, user⟩ =
      qToken e ⟨ts', queue, text, user⟩ >>= next n) : Reads reader ts iret (e :: es) rest := by
  intro token user
  obtain ⟨token', h⟩ := h text user
  refine ⟨token', eventually_of_succ ?_⟩
  filter_upwards [h] with n hn
  intro queue
  have hpush : pushAll (e :: es) queue = push queue e >>= pushAll es := List.foldlM_cons
  rw [hstep, qToken, loads, hpush]
  cases push queue e with
  | error stop => rfl
  | ok queue => exact hn queue

theorem Reads.of_return (text : Bytes → Bytes) (h : ∀ n queue token (user : σ),
    reader (n + 1) ⟨ts, queue, token, user⟩ = .ok (iret, ⟨rest, queue, text token, user⟩)) :
    Reads reader ts iret [] rest := by
  intro token user
  refine ⟨text token, eventually_of_succ (.of_forall ?_)⟩
  intro n queue
  rw [h]
  rfl

/-- A reader that pushes an entry and returns. -/
theorem Reads.of_push_return (text : Bytes) {e : Entry} (h : ∀ n queue token (user : σ),
    reader (n + 1) ⟨ts, queue, token, user⟩ =
      qToken e ⟨rest, queue, text, user⟩ >>= fun s => pure (iret, s)) :
    Reads reader ts iret [e] rest := by
  intro token user
  refine ⟨text, eventually_of_succ (.of_forall ?_)⟩
  intro n queue
  have hpush : pushAll [e] queue = push queue e >>= pushAll [] := List.foldlM_cons
  rw [h, qToken, loads, hpush]
  cases push queue e <;> rfl

/-! ## The readers on the tokens of trees -/

def Ends (rest : List ExprToken) : Prop := ∀ t ∈ rest.head?, isOperator t.entry.type = false

theorem ends_closeParen (rest : List ExprToken) : Ends (closeParen :: rest) := fun t ht => by
  cases ht
  rfl

theorem ends_comma (rest : List ExprToken) : Ends (comma :: rest) := fun t ht => by
  cases ht
  rfl

theorem exprLoop_ends (h : Ends rest) : Reads (exprLoop : Reader σ) rest 0 [] rest := by
  cases rest with
  | nil => exact .of_return (fun _ => []) fun _ _ _ _ => rfl
  | cons t rest =>
      refine .of_return (fun _ => t.entry.text) ?_
      intro n queue token user
      have hno : isOperator t.entry.type = false := h t rfl
      simp only [exprLoop, nextToken, hno, Bool.false_eq_true, if_false]
      rfl

theorem Reads.succ (h : Reads reader ts iret es rest) :
    Reads (fun n => reader (n + 1)) ts iret es rest := by
  intro token user
  obtain ⟨token', h⟩ := h token user
  exact ⟨token', (tendsto_add_atTop_nat 1).eventually h⟩

/-- An operator carries on with an expression: one more term, and the loop again. -/
theorem exprLoop_operator (op : BinaryOp) (h : Reads (expr : Reader σ) rest iret es rest') :
    Reads (exprLoop : Reader σ) (op.token :: rest) iret (bare (.token op.type) :: es) rest' := by
  refine Reads.of_push [] h.succ ?_
  intro n queue token user
  have hoperator : isOperator op.token.entry.type = true := isOperator_of_isBinary op.isBinary
  simp only [exprLoop, nextToken, hoperator, if_true]
  rfl

theorem expr_of_term (h : Reads (term : Reader σ) ts 0 es rest)
    (hloop : Reads (exprLoop : Reader σ) rest iret fs rest') :
    Reads (expr : Reader σ) ts iret (es ++ fs) rest' :=
  Reads.of_step id (h.andThen hloop) fun _ _ _ _ => rfl

theorem term_operand (o : Operand) : Reads (term : Reader σ) (.token o.token :: rest) 0
    [⟨.token o.token.type, o.token.text⟩] rest := by
  refine Reads.of_push_return o.token.text ?_
  intro n queue token user
  obtain ⟨⟨type, text, htext⟩, ho⟩ := o
  cases type <;> first | rfl | cases ho

def dropStatus (reader : Reader σ) : Reader σ := fun n s => do
  let (_, s) ← reader n s
  return (0, s)

theorem Reads.dropStatus (h : Reads reader ts iret es rest) :
    Reads (dropStatus reader) ts 0 es rest := by
  intro token user
  obtain ⟨token', h⟩ := h token user
  refine ⟨token', ?_⟩
  filter_upwards [h] with n hn
  intro queue
  rw [Expression.dropStatus, hn, loads, loads]
  cases pushAll es queue <;> rfl

theorem term_unary (op : UnaryOp) (h : Reads (term : Reader σ) ts iret es rest) :
    Reads (term : Reader σ) (op.token :: ts) 0 (bare (.token op.queued) :: es) rest := by
  refine Reads.of_push [] h.dropStatus ?_
  intro n queue token user
  cases op <;> rfl

def parenEnd : Reader σ := fun _ s =>
  let (type, s) := nextToken s
  if type = .token .closeParen then do return (0, ← qToken ⟨type, s.token⟩ s) else return (1, s)

theorem term_paren (h : Reads (Expression.andThen (expr : Reader σ) parenEnd) ts iret es rest) :
    Reads (term : Reader σ) (openParen :: ts) iret (bare (.token .openParen) :: es) rest :=
  Reads.of_push [] h fun _ _ _ _ => rfl

theorem parenEnd_close :
    Reads (parenEnd : Reader σ) (closeParen :: rest) 0 [bare (.token .closeParen)] rest :=
  .of_push_return [] fun _ _ _ _ => rfl

theorem term_function {place : ℕ} (h : Reads (func : Reader σ) ts iret es rest) :
    Reads (term : Reader σ) (.function place :: ts) iret (bare (.function place) :: es) rest :=
  Reads.of_push [] h fun _ _ _ _ => rfl

theorem func_empty :
    Reads (func : Reader σ) (openParen :: closeParen :: rest) 0 [bare .functionEnd] rest :=
  .of_push_return [] fun _ _ _ _ => rfl

theorem func_args {t : ExprToken} (ht : t.entry.type ≠ .token .closeParen)
    (h : Reads (Expression.andThen (expr : Reader σ) funcLoop) (t :: ts) iret es rest) :
    Reads (func : Reader σ) (openParen :: t :: ts) iret es rest := by
  refine Reads.of_step (fun _ => t.entry.text) h ?_
  intro n queue token user
  have hopen : openParen.entry.type = .token .openParen := rfl
  simp only [func, nextToken, hopen, if_true, if_neg ht]
  rfl

theorem funcLoop_close :
    Reads (funcLoop : Reader σ) (closeParen :: rest) 0 [bare .functionEnd] rest :=
  .of_push_return [] fun _ _ _ _ => rfl

theorem funcLoop_comma
    (h : Reads (Expression.andThen (expr : Reader σ) funcLoop) ts iret es rest) :
    Reads (funcLoop : Reader σ) (comma :: ts) iret (bare (.token .comma) :: es) rest :=
  Reads.of_push [] h fun _ _ _ _ => rfl

mutual

theorem term_reads (t : Term) (rest : List ExprToken) :
    Reads (term : Reader σ) (t.tokens ++ rest) 0 t.queued rest := by
  cases t with
  | operand o => exact term_operand o
  | unary op t => exact term_unary op (term_reads t rest)
  | paren e =>
      have he := (expr_reads e (ends_closeParen rest)).andThen parenEnd_close
      rw [Term.tokens, List.cons_append, List.append_assoc]
      exact term_paren he
  | call0 place => exact term_function func_empty
  | call place args =>
      obtain ⟨t, ts, htokens, ht⟩ := args.head_tokens
      have hargs := args_reads args rest
      rw [htokens] at hargs
      rw [Term.tokens, List.cons_append, List.cons_append, List.append_assoc, htokens]
      exact term_function (func_args ht hargs)
termination_by structural t

/-- Reading an expression takes the tokens of its tree, if what comes after them ends it. -/
theorem expr_reads (e : Exp) {rest : List ExprToken} (hrest : Ends rest) :
    Reads (expr : Reader σ) (e.tokens ++ rest) 0 e.queued rest := by
  cases e with
  | last t =>
      have h := expr_of_term (term_reads t rest) (exprLoop_ends hrest)
      rw [List.append_nil] at h
      exact h
  | binary t op e =>
      have hloop := exprLoop_operator op (expr_reads e hrest)
      rw [Exp.tokens, List.append_assoc]
      exact expr_of_term (term_reads t _) hloop
termination_by structural e

theorem args_reads (args : Args) (rest : List ExprToken) :
    Reads (andThen (expr : Reader σ) funcLoop) (args.tokens ++ closeParen :: rest) 0
      (args.queued ++ [bare .functionEnd]) rest := by
  cases args with
  | one e =>
      exact (expr_reads e (ends_closeParen rest)).andThen funcLoop_close
  | cons e args =>
      have h := (expr_reads e (ends_comma _)).andThen (funcLoop_comma (args_reads args rest))
      rw [Args.tokens, Args.queued, List.append_assoc, List.append_assoc]
      exact h
termination_by structural args

end

end

end ScOpen.Expression
