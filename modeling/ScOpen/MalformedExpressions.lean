import ScOpen.PlainExpressions

/-!
# Malformed expressions

Reading fails at the first token that cannot go on with an expression. The failure is lost in the
operand of a unary operator, and the complement behind a term is taken for an operator between two
terms. All other malformed expressions are refused.
-/

namespace ScOpen.Expression

open Filter

def headType (ts : List ExprToken) : ExprType :=
  match ts with
  | [] => .token .nullToken
  | t :: _ => t.entry.type

def startsTerm : ExprType → Bool
  | .function _ => true
  | .token .minus | .token .plus | .token .unaryOnesComplement | .token .openParen => true
  | .token type => isOperand type
  | .functionEnd => false

def isBinaryType : ExprType → Bool
  | .token type => isBinary type
  | _ => false

inductive Part where
  | term | exp | args

/-- The tokens cannot be read. It is lost where the first token that cannot be read is in the
operand of a unary operator, or is an operator that cannot stand behind a term. -/
inductive Fails : Part → Bool → List ExprToken → Prop
  | stray {ts : List ExprToken} (h : startsTerm (headType ts) = false) : Fails .term false ts
  | unary {lost : Bool} {ts : List ExprToken} (op : UnaryOp) (h : Fails .term lost ts) :
      Fails .term true (op.token :: ts)
  | paren {lost : Bool} {ts : List ExprToken} (h : Fails .exp lost ts) :
      Fails .term lost (openParen :: ts)
  | unclosed {rest : List ExprToken} (e : Exp) (hrest : Ends rest)
      (h : headType rest ≠ .token .closeParen) :
      Fails .term false (openParen :: (e.tokens ++ rest))
  | name {ts : List ExprToken} (place : ℕ) (h : headType ts ≠ .token .openParen) :
      Fails .term false (.function place :: ts)
  | call {lost : Bool} {ts : List ExprToken} (place : ℕ)
      (hts : headType ts ≠ .token .closeParen) (h : Fails .args lost ts) :
      Fails .term lost (.function place :: openParen :: ts)
  | first {lost : Bool} {ts : List ExprToken} (h : Fails .term lost ts) : Fails .exp lost ts
  | later {lost : Bool} {ts : List ExprToken} (t : Term) (op : BinaryOp)
      (h : Fails .exp lost ts) : Fails .exp lost (t.tokens ++ op.token :: ts)
  | operator {rest : List ExprToken} (t : Term) (hrest : isOperator (headType rest) = true)
      (h : isBinaryType (headType rest) = false) : Fails .exp true (t.tokens ++ rest)
  | argument {lost : Bool} {ts : List ExprToken} (h : Fails .exp lost ts) : Fails .args lost ts
  | next {lost : Bool} {ts : List ExprToken} (e : Exp) (h : Fails .args lost ts) :
      Fails .args lost (e.tokens ++ comma :: ts)
  | noEnd {rest : List ExprToken} (e : Exp) (hrest : Ends rest)
      (hclose : headType rest ≠ .token .closeParen) (hcomma : headType rest ≠ .token .comma) :
      Fails .args false (e.tokens ++ rest)

/-! ## The next token -/

theorem ends_iff (rest : List ExprToken) : Ends rest ↔ isOperator (headType rest) = false := by
  cases rest with
  | nil => exact ⟨fun _ => rfl, fun _ t ht => by cases ht⟩
  | cons t rest => exact ⟨fun h => h t rfl, fun h t' ht => by cases ht; exact h⟩

theorem Token.eq_mark {t : Token} {type : TokenType} (h : t.type = type)
    (htext : type.hasText = false) : t = mark type htext := by
  obtain ⟨type', text, hempty⟩ := t
  cases h
  cases hempty htext
  rfl

theorem eq_mark_cons {ts : List ExprToken} {type : TokenType} (htext : type.hasText = false)
    (hnull : type ≠ .nullToken) (h : headType ts = .token type) :
    ∃ us, ts = .token (mark type htext) :: us := by
  cases ts with
  | nil => exact absurd (ExprType.token.inj h).symm hnull
  | cons t us =>
      cases t with
      | token t => exact ⟨us, by rw [Token.eq_mark (ExprType.token.inj h) htext]⟩
      | function place => cases h

theorem binary_cons {ts : List ExprToken} (h : isBinaryType (headType ts) = true) :
    ∃ op us, ts = BinaryOp.token op :: us := by
  cases ts with
  | nil => cases h
  | cons t us =>
      cases t with
      | token t =>
          have htoken := Token.eq_mark (t := t) rfl (hasText_of_isBinary h)
          exact ⟨⟨t.type, h⟩, us, congrArg (ExprToken.token · :: us) htoken⟩
      | function place => cases h

/-- The four ways in which a term starts. -/
theorem startsTerm_cases {ts : List ExprToken} (h : startsTerm (headType ts) = true) :
    (∃ place us, ts = .function place :: us) ∨ (∃ o us, ts = .token (Operand.token o) :: us) ∨
      (∃ op us, ts = UnaryOp.token op :: us) ∨ ∃ us, ts = openParen :: us := by
  cases ts with
  | nil => cases h
  | cons t us =>
      cases t with
      | function place => exact .inl ⟨place, us, rfl⟩
      | token t =>
          have hmark {type : TokenType} (htype : t.type = type) (htext : type.hasText = false) :
              ExprToken.token t :: us = .token (mark type htext) :: us :=
            congrArg (ExprToken.token · :: us) (Token.eq_mark htype htext)
          by_cases hoperand : isOperand t.type = true
          · exact .inr (.inl ⟨⟨t, hoperand⟩, us, rfl⟩)
          · by_cases hminus : t.type = .minus
            · exact .inr (.inr (.inl ⟨.minus, us, hmark hminus minus_hasText⟩))
            · by_cases hplus : t.type = .plus
              · exact .inr (.inr (.inl ⟨.plus, us, hmark hplus plus_hasText⟩))
              · by_cases hcomplement : t.type = .unaryOnesComplement
                · exact .inr (.inr (.inl ⟨.onesComplement, us,
                    hmark hcomplement unaryOnesComplement_hasText⟩))
                · by_cases hopen : t.type = .openParen
                  · exact .inr (.inr (.inr ⟨us, hmark hopen openParen_hasText⟩))
                  · simp only [headType, ExprToken.entry] at h
                    have hno : isOperand t.type = true := by
                      cases htype : t.type <;> simp_all [startsTerm]
                    exact absurd hno hoperand

/-! ## A prefix is an expression, or reading fails -/

def IsTerm (ts : List ExprToken) : Prop := ∃ (t : Term) (rest : _), ts = t.tokens ++ rest

def IsExp (ts : List ExprToken) : Prop :=
  ∃ (e : Exp) (rest : _), ts = e.tokens ++ rest ∧ Ends rest

def IsArgs (ts : List ExprToken) : Prop :=
  ∃ (args : Args) (rest : _), ts = args.tokens ++ closeParen :: rest

structure Settles (ts : List ExprToken) : Prop where
  term : IsTerm ts ∨ ∃ lost, Fails .term lost ts
  exp : IsExp ts ∨ ∃ lost, Fails .exp lost ts
  args : IsArgs ts ∨ ∃ lost, Fails .args lost ts

theorem term_settles {ts : List ExprToken} (ih : ∀ us, us.length < ts.length → Settles us) :
    IsTerm ts ∨ ∃ lost, Fails .term lost ts := by
  by_cases hstart : startsTerm (headType ts) = true
  · rcases startsTerm_cases hstart with ⟨place, us, rfl⟩ | ⟨o, us, rfl⟩ | ⟨op, us, rfl⟩ | ⟨us, rfl⟩
    · by_cases hopen : headType us = .token .openParen
      · obtain ⟨vs, rfl⟩ := eq_mark_cons openParen_hasText (by simp) hopen
        by_cases hclose : headType vs = .token .closeParen
        · obtain ⟨rest, rfl⟩ := eq_mark_cons closeParen_hasText (by simp) hclose
          exact .inl ⟨.call0 place, rest, rfl⟩
        · have hvs := (ih vs (by simp only [List.length_cons]; omega)).args
          rcases hvs with ⟨args, rest, rfl⟩ | ⟨lost, hfails⟩
          · exact .inl ⟨.call place args, rest, by simp [Term.tokens, openParen]⟩
          · exact .inr ⟨lost, .call place hclose hfails⟩
      · exact .inr ⟨false, .name place hopen⟩
    · exact .inl ⟨.operand o, us, rfl⟩
    · rcases (ih us (by simp)).term with ⟨t, rest, rfl⟩ | ⟨lost, hfails⟩
      · exact .inl ⟨.unary op t, rest, rfl⟩
      · exact .inr ⟨true, .unary op hfails⟩
    · rcases (ih us (by simp)).exp with ⟨e, rest, rfl, hrest⟩ | ⟨lost, hfails⟩
      · by_cases hclose : headType rest = .token .closeParen
        · obtain ⟨rest', rfl⟩ := eq_mark_cons closeParen_hasText (by simp) hclose
          exact .inl ⟨.paren e, rest', by simp [Term.tokens, closeParen]⟩
        · exact .inr ⟨false, .unclosed e hrest hclose⟩
      · exact .inr ⟨lost, .paren hfails⟩
  · exact .inr ⟨false, .stray (Bool.eq_false_iff.2 hstart)⟩

theorem exp_settles {ts : List ExprToken} (ih : ∀ us, us.length < ts.length → Settles us)
    (hterm : IsTerm ts ∨ ∃ lost, Fails .term lost ts) :
    IsExp ts ∨ ∃ lost, Fails .exp lost ts := by
  rcases hterm with ⟨t, rest, rfl⟩ | ⟨lost, hfails⟩
  · by_cases hoperator : isOperator (headType rest) = true
    · by_cases hbinary : isBinaryType (headType rest) = true
      · obtain ⟨op, us, rfl⟩ := binary_cons hbinary
        have hus := (ih us (by simp only [List.length_append, List.length_cons]; omega)).exp
        rcases hus with ⟨e, rest, rfl, hrest⟩ | ⟨lost, hfails⟩
        · exact .inl ⟨.binary t op e, rest, by simp [Exp.tokens], hrest⟩
        · exact .inr ⟨lost, .later t op hfails⟩
      · exact .inr ⟨true, .operator t hoperator (Bool.eq_false_iff.2 hbinary)⟩
    · exact .inl ⟨.last t, rest, rfl, (ends_iff rest).2 (Bool.eq_false_iff.2 hoperator)⟩
  · exact .inr ⟨lost, .first hfails⟩

theorem args_settles {ts : List ExprToken} (ih : ∀ us, us.length < ts.length → Settles us)
    (hexp : IsExp ts ∨ ∃ lost, Fails .exp lost ts) :
    IsArgs ts ∨ ∃ lost, Fails .args lost ts := by
  rcases hexp with ⟨e, rest, rfl, hrest⟩ | ⟨lost, hfails⟩
  · by_cases hclose : headType rest = .token .closeParen
    · obtain ⟨rest', rfl⟩ := eq_mark_cons closeParen_hasText (by simp) hclose
      exact .inl ⟨.one e, rest', rfl⟩
    · by_cases hcomma : headType rest = .token .comma
      · obtain ⟨us, rfl⟩ := eq_mark_cons comma_hasText (by simp) hcomma
        have hus := (ih us (by simp only [List.length_append, List.length_cons]; omega)).args
        rcases hus with ⟨args, rest, rfl⟩ | ⟨lost, hfails⟩
        · exact .inl ⟨.cons e args, rest, by simp [Args.tokens, comma]⟩
        · exact .inr ⟨lost, .next e hfails⟩
      · exact .inr ⟨false, .noEnd e hrest hclose hcomma⟩
  · exact .inr ⟨lost, .argument hfails⟩

theorem settles (ts : List ExprToken) : Settles ts := by
  induction hlength : ts.length using Nat.strong_induction_on generalizing ts with
  | _ n ih =>
    have ih' : ∀ us : List ExprToken, us.length < ts.length → Settles us := by
      intro us hus
      exact ih us.length (hlength ▸ hus) us rfl
    have hterm := term_settles ih'
    have hexp := exp_settles ih' hterm
    exact ⟨hterm, hexp, args_settles ih' hexp⟩

/-! ## Failing reads -/

section

variable {σ : Type}

theorem term_stray {ts : List ExprToken} (h : startsTerm (headType ts) = false) :
    Reads (term : Reader σ) ts 1 [] ts.tail := by
  cases ts with
  | nil => exact .of_return (fun _ => []) fun _ _ _ _ => rfl
  | cons t ts =>
      refine .of_return (fun _ => t.entry.text) fun n queue token user => ?_
      cases t with
      | function place => cases h
      | token t =>
          obtain ⟨type, text, htext⟩ := t
          cases type <;> first | rfl | cases h

theorem parenEnd_stray {ts : List ExprToken} (h : headType ts ≠ .token .closeParen) :
    Reads (parenEnd : Reader σ) ts 1 [] ts.tail := by
  cases ts with
  | nil => exact .of_return (fun _ => []) fun _ _ _ _ => rfl
  | cons t ts => exact .of_return (fun _ => t.entry.text) fun _ _ _ _ => if_neg h

theorem func_stray {ts : List ExprToken} (h : headType ts ≠ .token .openParen) :
    Reads (func : Reader σ) ts 1 [] ts.tail := by
  cases ts with
  | nil => exact .of_return (fun _ => []) fun _ _ _ _ => rfl
  | cons t ts => exact .of_return (fun _ => t.entry.text) fun _ _ _ _ => if_neg h

theorem funcLoop_stray {ts : List ExprToken} (hclose : headType ts ≠ .token .closeParen)
    (hcomma : headType ts ≠ .token .comma) : Reads (funcLoop : Reader σ) ts 1 [] ts.tail := by
  cases ts with
  | nil => exact .of_return (fun _ => []) fun _ _ _ _ => rfl
  | cons t ts =>
      exact .of_return (fun _ => t.entry.text) fun _ _ _ _ =>
        (if_neg hclose).trans (if_neg hcomma)

theorem func_of_args {ts rest : List ExprToken} {iret : ℕ} {es : List Entry}
    (hts : headType ts ≠ .token .closeParen)
    (h : Reads (andThen (expr : Reader σ) funcLoop) ts iret es rest) :
    Reads (func : Reader σ) (openParen :: ts) iret es rest := by
  cases ts with
  | nil => exact .of_step (fun _ => []) h fun _ _ _ _ => rfl
  | cons t ts => exact func_args hts h

def Part.reader : Part → Reader σ
  | .term => Expression.term
  | .exp => expr
  | .args => andThen expr funcLoop

/-- A failure that is not lost is the status that comes back. -/
theorem fails_reads {p : Part} {lost : Bool} {ts : List ExprToken} (h : Fails p lost ts)
    (hlost : lost = false) : ∃ es rest, Reads (p.reader : Reader σ) ts 1 es rest := by
  induction h with
  | stray h => exact ⟨_, _, term_stray h⟩
  | unary op h ih => cases hlost
  | paren h ih =>
      obtain ⟨es, rest, hreads⟩ := ih hlost
      exact ⟨_, rest, term_paren (hreads.andThen_fails one_ne_zero)⟩
  | unclosed e hrest h => exact ⟨_, _, term_paren ((expr_reads e hrest).andThen (parenEnd_stray h))⟩
  | name place h => exact ⟨_, _, term_function (func_stray h)⟩
  | call place hts h ih =>
      obtain ⟨es, rest, hreads⟩ := ih hlost
      exact ⟨_, rest, term_function (func_of_args hts hreads)⟩
  | first h ih =>
      obtain ⟨es, rest, hreads⟩ := ih hlost
      exact ⟨es, rest, .of_step id (hreads.andThen_fails one_ne_zero) fun _ _ _ _ => rfl⟩
  | later t op h ih =>
      obtain ⟨es, rest, hreads⟩ := ih hlost
      exact ⟨_, rest, expr_of_term (term_reads t _) (exprLoop_operator op hreads)⟩
  | operator t hrest h => cases hlost
  | argument h ih =>
      obtain ⟨es, rest, hreads⟩ := ih hlost
      exact ⟨es, rest, hreads.andThen_fails one_ne_zero⟩
  | next e h ih =>
      obtain ⟨es, rest, hreads⟩ := ih hlost
      exact ⟨_, rest, (expr_reads e (ends_comma _)).andThen (funcLoop_comma hreads)⟩
  | noEnd e hrest hclose hcomma =>
      exact ⟨_, _, (expr_reads e hrest).andThen (funcLoop_stray hclose hcomma)⟩

end

/-! ## What is refused -/

/-- Whatever the operators and functions are, `expression()` returns a failure, or the process ends
on a full queue. -/
def Rejects (ts : List ExprToken) : Prop :=
  ∀ (σ : Type) (ops : Operations σ) (queue : List Entry) (token : Bytes) (user : σ),
    ∀ᶠ n in atTop, expression ops n ⟨ts, queue, token, user⟩ = .error .fatal ∨
      ∃ iret s, expression ops n ⟨ts, queue, token, user⟩ = .ok (iret, s) ∧ iret ≠ 0

theorem pushAll_cases (es queue : List Entry) :
    pushAll es queue = .error .fatal ∨ ∃ queue', pushAll es queue = .ok queue' := by
  induction es generalizing queue with
  | nil => exact .inr ⟨queue, rfl⟩
  | cons e es ih =>
      have hcons : pushAll (e :: es) queue = push queue e >>= pushAll es := List.foldlM_cons
      rw [hcons, push]
      split
      · exact .inl rfl
      · exact ih (e :: queue)

theorem rejects_of_fails {ts : List ExprToken} (h : Fails .exp false ts) : Rejects ts := by
  intro σ ops queue token user
  obtain ⟨es, rest, hreads⟩ : ∃ es rest, Reads (expr : Reader σ) ts 1 es rest :=
    fails_reads h rfl
  obtain ⟨token', hn⟩ := hreads token user
  filter_upwards [hn] with n hn
  have hexpr : expr n ⟨ts, [], token, user⟩ = loads 1 es rest token' user [] := hn []
  rw [expression, hexpr, loads]
  rcases pushAll_cases es [] with hfull | ⟨queue', hqueue⟩
  · rw [hfull]
    exact .inl rfl
  · rw [hqueue]
    exact .inr ⟨1, ⟨rest, queue', token', user⟩, rfl, one_ne_zero⟩

/-- An expression that is no expression of the grammar is refused, unless the first token that
cannot be read is in the operand of a unary operator, or is the complement behind a term. -/
theorem rejects_malformed {ts : List ExprToken} (hmalformed : ¬IsExp ts)
    (hlost : ¬Fails .exp true ts) : Rejects ts := by
  rcases (settles ts).exp with hexp | ⟨lost, hfails⟩
  · exact absurd hexp hmalformed
  · cases lost with
    | true => exact absurd hfails hlost
    | false => exact rejects_of_fails hfails

theorem Term.startsTerm (t : Term) (ts : List ExprToken) :
    startsTerm (headType (t.tokens ++ ts)) = true := by
  cases t with
  | operand o =>
      obtain ⟨⟨type, text, htext⟩, ho⟩ := o
      cases type <;> first | rfl | cases ho
  | unary op t => cases op <;> rfl
  | paren e => rfl
  | call0 place => rfl
  | call place args => rfl

theorem Exp.startsTerm (e : Exp) (ts : List ExprToken) :
    startsTerm (headType (e.tokens ++ ts)) = true := by
  cases e with
  | last t => exact t.startsTerm ts
  | binary t op e =>
      rw [Exp.tokens, List.append_assoc]
      exact t.startsTerm _

/-- Before a failure is lost, the start of a term has been read. -/
theorem Fails.startsTerm {p : Part} {lost : Bool} {ts : List ExprToken} (h : Fails p lost ts)
    (hlost : lost = true) : startsTerm (headType ts) = true := by
  induction h with
  | stray h => cases hlost
  | unary op h ih => cases op <;> rfl
  | paren h ih => rfl
  | unclosed e hrest h => rfl
  | name place h => rfl
  | call place hts h ih => rfl
  | first h ih => exact ih hlost
  | later t op h ih => exact t.startsTerm _
  | operator t hrest h => exact t.startsTerm _
  | argument h ih => exact ih hlost
  | next e h ih => exact e.startsTerm _
  | noEnd e hrest hclose hcomma => exact e.startsTerm _

/-- Behind a word that is a term by itself. -/
theorem Term.behind_word {t : Term} {ts us : List ExprToken} {name : Bytes}
    (h : t.tokens ++ ts = .token (word name) :: us) : ts = us := by
  cases t with
  | operand o => exact (List.cons.inj h).2
  | unary op t => cases op <;> cases (List.cons.inj h).1
  | paren e => cases (List.cons.inj h).1
  | call0 place => cases (List.cons.inj h).1
  | call place args => cases (List.cons.inj h).1

/-- `a + )`. -/
def nothingAdded : List ExprToken :=
  [.token (word (cstr "a")), .token (mark .plus plus_hasText), closeParen]

/-- A term is missing between an operator and a closing parenthesis. -/
theorem rejects_nothingAdded : Rejects nothingAdded := by
  refine rejects_malformed ?_ fun h => ?_
  · rintro ⟨e, rest, h, hends⟩
    cases e with
    | last t =>
        obtain rfl := Term.behind_word h.symm
        cases hends _ rfl
    | binary t op e =>
        rw [Exp.tokens, List.append_assoc] at h
        have hbehind : e.tokens ++ rest = [closeParen] :=
          (List.cons.inj (Term.behind_word h.symm)).2
        have hstart := e.startsTerm rest
        rw [hbehind] at hstart
        cases hstart
  · generalize htokens : nothingAdded = ts at h
    cases h with
    | first h =>
        cases h with
        | unary op h => cases op <;> cases (List.cons.inj htokens).1
        | paren h => cases (List.cons.inj htokens).1
        | call place hts h => cases (List.cons.inj htokens).1
    | later t op h =>
        obtain rfl := (List.cons.inj (Term.behind_word htokens.symm)).2
        cases h.startsTerm rfl
    | operator t hrest h =>
        obtain rfl := Term.behind_word htokens.symm
        cases h

/-- `-` at the end of a line. -/
def signOnly : List ExprToken :=
  [UnaryOp.minus.token, .token (mark .endOfLine endOfLine_hasText)]

theorem signOnly_ne (t : Term) (ts : List ExprToken) : t.tokens ++ ts ≠ signOnly := by
  cases t with
  | operand o =>
      intro h
      have htoken : o.token = mark .minus minus_hasText :=
        ExprToken.token.inj (List.cons.inj h).1
      have ho := o.isOperand
      rw [htoken] at ho
      cases ho
  | unary op t =>
      intro h
      have hrest : t.tokens ++ ts = [.token (mark .endOfLine endOfLine_hasText)] :=
        (List.cons.inj h).2
      have hstart := t.startsTerm ts
      rw [hrest] at hstart
      cases hstart
  | paren e => exact fun h => by cases h
  | call0 place => exact fun h => by cases h
  | call place args => exact fun h => by cases h

/-- A minus without an operand is accepted, with an empty value. -/
theorem malformed_not_always_rejected : ¬∀ ts, ¬IsExp ts → Rejects ts := by
  intro h
  have hmalformed : ¬IsExp signOnly := by
    rintro ⟨e, rest, he, -⟩
    cases e with
    | last t => exact signOnly_ne t rest he.symm
    | binary t op e =>
        rw [Exp.tokens, List.append_assoc] at he
        exact signOnly_ne t _ he.symm
  have hreturns (n : ℕ) : expression intOperations (n + 5) ⟨signOnly, [], [], ()⟩ =
      .ok (0, ⟨[], [], [], ()⟩) := rfl
  have hrejects := h _ hmalformed Unit intOperations [] [] ()
  obtain ⟨n, hn⟩ := ((tendsto_add_atTop_nat 5).eventually hrejects).exists
  rw [hreturns] at hn
  rcases hn with hfatal | ⟨iret, s, hok, hiret⟩
  · cases hfatal
  · cases hok
    exact hiret rfl

end ScOpen.Expression
