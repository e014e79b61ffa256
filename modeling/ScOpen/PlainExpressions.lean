import ScOpen.ExpressionValues
import ScOpen.Interpreter
import Mathlib.Tactic.Linarith

/-!
# Expressions with the value of their parse tree

`expression()` finds the value of the parse tree when the left terms of operators have at most one
unary operator that is not a plus sign in front of others. Where there are more, operators exist
that tell the two values apart.
-/

namespace ScOpen.Expression

/-- `expression()` returns 0 with the value of the parse tree, and leaves the queue empty. -/
def ValueOf (e : Exp) : Prop :=
  ∀ (σ : Type) (ops : Operations σ) (rest : List ExprToken), Ends rest →
    ∀ queue token user v user', e.eval ops user = some (v, user') →
      Returns (fun n => expression ops n ⟨e.tokens ++ rest, queue, token, user⟩)
        (0, ⟨rest, [], v, user'⟩)

/-- The unary operators of the term are all plus signs, but for the innermost one. -/
def Term.OneSign : Term → Prop
  | .unary u (.unary u' t) => u = .plus ∧ (Term.unary u' t).OneSign
  | _ => True

mutual

def Term.Plain : Term → Prop
  | .operand _ => True
  | .unary _ t => t.Plain
  | .paren e => e.Plain
  | .call0 _ => True
  | .call _ args => args.Plain

def Exp.Plain : Exp → Prop
  | .last t => t.Plain
  | .binary t _ e => t.OneSign ∧ t.Plain ∧ e.Plain

def Args.Plain : Args → Prop
  | .one e => e.Plain
  | .cons e args => e.Plain ∧ args.Plain

end

def Args.count : Args → ℕ
  | .one _ => 1
  | .cons _ args => args.count + 1

mutual

def Term.Fits : Term → Prop
  | .operand _ => True
  | .unary _ t => t.Fits
  | .paren e => e.Fits
  | .call0 _ => True
  | .call _ args => args.count ≤ 3 ∧ args.Fits

def Exp.Fits : Exp → Prop
  | .last t => t.Fits
  | .binary t _ e => t.Fits ∧ e.Fits

def Args.Fits : Args → Prop
  | .one e => e.Fits
  | .cons e args => e.Fits ∧ args.Fits

end

/-! ## Plain expressions -/

section

variable {σ : Type} (ops : Operations σ)

theorem Term.eval_plus (t : Term) (user : σ) :
    (Term.unary .plus t).eval ops user = t.eval ops user := by
  simp only [Term.eval, Operations.unary]
  cases t.eval ops user <;> rfl

theorem regroupLeft_eval (t : Term) (ht : t.OneSign) (op : BinaryOp) (e : Exp) (user : σ) :
    (regroupLeft t op e).eval ops user = (Exp.binary t op e).eval ops user := by
  cases t with
  | operand o => rfl
  | paren e => rfl
  | call0 place => rfl
  | call place args => rfl
  | unary u t =>
      cases t with
      | operand o => rfl
      | paren e => rfl
      | call0 place => rfl
      | call place args => rfl
      | unary u' t =>
          obtain ⟨rfl, ht⟩ := ht
          have hleft := regroupLeft_eval (.unary u' t) ht op e user
          calc (regroupLeft (.unary .plus (.unary u' t)) op e).eval ops user
              = (Term.unary .plus (.paren (regroupLeft (.unary u' t) op e))).eval ops user := rfl
            _ = (regroupLeft (.unary u' t) op e).eval ops user := Term.eval_plus ops _ user
            _ = (Exp.binary (.unary u' t) op e).eval ops user := hleft
            _ = (Exp.binary (.unary .plus (.unary u' t)) op e).eval ops user := by
                simp only [Exp.eval, Term.eval_plus]
termination_by structural t

theorem Term.oneSign_regroup (t : Term) (ht : t.OneSign) : t.regroup.OneSign := by
  cases t with
  | operand o => trivial
  | paren e => trivial
  | call0 place => trivial
  | call place args => trivial
  | unary u t =>
      cases t with
      | operand o => trivial
      | paren e => trivial
      | call0 place => trivial
      | call place args => trivial
      | unary u' t => exact ⟨ht.1, (Term.unary u' t).oneSign_regroup ht.2⟩
termination_by structural t

mutual

theorem Term.eval_regroup (t : Term) (ht : t.Plain) (user : σ) :
    t.regroup.eval ops user = t.eval ops user := by
  cases t with
  | operand o => rfl
  | unary u t => simp only [Term.regroup, Term.eval, t.eval_regroup ht]
  | paren e => exact e.eval_regroup ht user
  | call0 place => rfl
  | call place args => simp only [Term.regroup, Term.eval, args.eval_regroup ht]
termination_by structural t

/-- A plain expression has the value of the tree that is solved. -/
theorem Exp.eval_regroup (e : Exp) (he : e.Plain) (user : σ) :
    e.regroup.eval ops user = e.eval ops user := by
  cases e with
  | last t => exact t.eval_regroup he user
  | binary t op e =>
      obtain ⟨hsign, ht, he⟩ := he
      rw [Exp.regroup, regroupLeft_eval ops t.regroup (t.oneSign_regroup hsign)]
      simp only [Exp.eval, t.eval_regroup ht, e.eval_regroup he]
termination_by structural e

theorem Args.eval_regroup (args : Args) (hargs : args.Plain) (user : σ) :
    args.regroup.eval ops user = args.eval ops user := by
  cases args with
  | one e => simp only [Args.regroup, Args.eval, e.eval_regroup hargs]
  | cons e args =>
      simp only [Args.regroup, Args.eval, e.eval_regroup hargs.1, args.eval_regroup hargs.2]
termination_by structural args

end

end

/-! ## Telling two trees apart -/

def textOfLength (n : ℕ) : Bytes := List.replicate n (chr 'x')

def textLength (v : Bytes) : ℕ := (cString v).length

theorem cString_textOfLength (n : ℕ) : cString (textOfLength n) = textOfLength n := by
  refine cString_eq_self fun h => ?_
  have hzero : (0 : UInt8) = chr 'x' := List.eq_of_mem_replicate h
  exact absurd hzero (by decide)

theorem textLength_textOfLength (n : ℕ) : textLength (textOfLength n) = n := by
  rw [textLength, cString_textOfLength, textOfLength, List.length_replicate]

theorem textLength_cString (v : Bytes) : textLength (cString v) = textLength v := by
  simp [textLength, cString, List.takeWhile_takeWhile]

def joined (right left : ℕ) : ℕ := right + (left + 1) ^ 2

def lengths : Operations Unit where
  addSubMultDiv _ arg1 arg2 := some (textOfLength (joined (textLength arg1) (textLength arg2)))
  logicalBitwise _ arg1 arg2 := some (textOfLength (joined (textLength arg1) (textLength arg2)))
  onesComplement arg := some (textOfLength (textLength arg + 1))
  concat arg1 arg2 _ := textOfLength (joined (textLength arg1) (textLength arg2))
  strCmp _ arg1 arg2 := textOfLength (joined (textLength arg1) (textLength arg2))
  function _ _ arg0 arg1 arg2 user :=
    ⟨0, textOfLength (textLength arg0 + textLength arg1 + textLength arg2), some .number, user⟩

def UnaryOp.cost : UnaryOp → ℕ
  | .minus => 9
  | .plus => 0
  | .onesComplement => 1

mutual

def Term.weight : Term → ℕ
  | .operand o => textLength o.token.text
  | .unary op t => t.weight + op.cost
  | .paren e => e.weight
  | .call0 _ => 0
  | .call _ args => args.weight

def Exp.weight : Exp → ℕ
  | .last t => t.weight
  | .binary t _ e => joined e.weight t.weight

def Args.weight : Args → ℕ
  | .one e => e.weight
  | .cons e args => e.weight + args.weight

end

theorem lengths_arithmetic (type : TokenType) (v w : Bytes) :
    lengths.arithmetic type v w = some (textOfLength (joined (textLength v) (textLength w))) := by
  simp only [Operations.arithmetic, lengths, Option.map_some, cString_textOfLength,
    textLength_cString]

theorem lengths_unary (op : UnaryOp) (v : Bytes) :
    ∃ w, lengths.unary op v = some w ∧ textLength w = textLength v + op.cost := by
  cases op with
  | minus =>
      refine ⟨_, lengths_arithmetic .mult v (cstr "-1"), ?_⟩
      rw [textLength_textOfLength]
      rfl
  | plus => exact ⟨v, rfl, rfl⟩
  | onesComplement => exact ⟨_, rfl, textLength_textOfLength _⟩

theorem lengths_binary (op : BinaryOp) (v w : Bytes) :
    ∃ r, lengths.binary (.token op.type) v w = some r ∧
      textLength r = joined (textLength v) (textLength w) := by
  obtain ⟨type, htype⟩ := op
  refine ⟨_, ?_, textLength_textOfLength _⟩
  cases type <;> first | exact lengths_arithmetic _ v w | rfl | cases htype

theorem lengths_call (place : ℕ) {vs : List Bytes} (hvs : vs.length ≤ 3) :
    ∃ v, lengths.call place vs () = some (v, ()) ∧ textLength v = (vs.map textLength).sum := by
  refine ⟨_, if_pos ⟨hvs, rfl, rfl⟩, ?_⟩
  have hempty : textLength [] = 0 := rfl
  rcases vs with _ | ⟨v₀, _ | ⟨v₁, _ | ⟨v₂, _ | ⟨v₃, vs⟩⟩⟩⟩
  · exact textLength_textOfLength _
  · simp [lengths, textLength_textOfLength, hempty]
  · simp [lengths, textLength_textOfLength, hempty]
  · simp [lengths, textLength_textOfLength, Nat.add_assoc]
  · simp only [List.length_cons] at hvs
    omega

mutual

theorem Term.eval_lengths (t : Term) (ht : t.Fits) :
    ∃ v, t.eval lengths () = some (v, ()) ∧ textLength v = t.weight := by
  cases t with
  | operand o => exact ⟨o.token.text, rfl, rfl⟩
  | unary op t =>
      obtain ⟨v, hv, hlength⟩ := t.eval_lengths ht
      obtain ⟨w, hw, hw'⟩ := lengths_unary op v
      refine ⟨w, ?_, ?_⟩
      · simp only [Term.eval, hv, hw, Option.bind_eq_bind, Option.bind_some]
        rfl
      · rw [hw', hlength, Term.weight]
  | paren e => exact e.eval_lengths ht
  | call0 place => exact lengths_call place (Nat.zero_le 3)
  | call place args =>
      obtain ⟨vs, hvs, hcount, hsum⟩ := args.eval_lengths ht.2
      have hthree : vs.length ≤ 3 := hcount ▸ ht.1
      obtain ⟨v, hv, hlength⟩ := lengths_call place hthree
      refine ⟨v, ?_, ?_⟩
      · simp only [Term.eval, hvs, Option.bind_eq_bind, Option.bind_some, hv]
      · rw [hlength, hsum, Term.weight]
termination_by structural t

/-- The value of an expression that fits has the weight of its tree as its length. -/
theorem Exp.eval_lengths (e : Exp) (he : e.Fits) :
    ∃ v, e.eval lengths () = some (v, ()) ∧ textLength v = e.weight := by
  cases e with
  | last t => exact t.eval_lengths he
  | binary t op e =>
      obtain ⟨w, hw, hw'⟩ := t.eval_lengths he.1
      obtain ⟨v, hv, hv'⟩ := e.eval_lengths he.2
      obtain ⟨r, hr, hr'⟩ := lengths_binary op v w
      refine ⟨r, ?_, ?_⟩
      · simp only [Exp.eval, hv, hw, hr, Option.bind_eq_bind, Option.bind_some]
        rfl
      · rw [hr', hv', hw', Exp.weight]
termination_by structural e

theorem Args.eval_lengths (args : Args) (hargs : args.Fits) :
    ∃ vs, args.eval lengths () = some (vs, ()) ∧ vs.length = args.count ∧
      (vs.map textLength).sum = args.weight := by
  cases args with
  | one e =>
      obtain ⟨v, hv, hlength⟩ := e.eval_lengths hargs
      refine ⟨[v], ?_, rfl, ?_⟩
      · simp only [Args.eval, hv, Option.bind_eq_bind, Option.bind_some]
        rfl
      · simp [hlength, Args.weight]
  | cons e args =>
      obtain ⟨vs, hvs, hcount, hsum⟩ := args.eval_lengths hargs.2
      obtain ⟨v, hv, hlength⟩ := e.eval_lengths hargs.1
      refine ⟨vs ++ [v], ?_, ?_, ?_⟩
      · simp only [Args.eval, hvs, hv, Option.bind_eq_bind, Option.bind_some]
        rfl
      · rw [List.length_append, hcount]
        rfl
      · simp only [List.map_append, List.sum_append, hsum, List.map_cons, List.map_nil,
          List.sum_singleton, hlength, Args.weight]
        omega
termination_by structural args

end

/-! ## The weight of the tree that is solved -/

theorem joined_le {m m' n n' : ℕ} (hm : m ≤ m') (hn : n ≤ n') : joined m n ≤ joined m' n' := by
  have hsq : (n + 1) ^ 2 ≤ (n' + 1) ^ 2 := Nat.pow_le_pow_left (Nat.succ_le_succ hn) 2
  simp only [joined]
  omega

theorem joined_lt {m m' n n' : ℕ} (hm : m ≤ m') (hn : n ≤ n') (h : m < m' ∨ n < n') :
    joined m n < joined m' n' := by
  have hle : (n + 1) ^ 2 ≤ (n' + 1) ^ 2 := Nat.pow_le_pow_left (Nat.succ_le_succ hn) 2
  simp only [joined]
  rcases h with h | h
  · omega
  · have hlt : (n + 1) ^ 2 < (n' + 1) ^ 2 :=
      Nat.pow_lt_pow_left (Nat.succ_lt_succ h) two_ne_zero
    omega

/-- An operator costs less in front of the whole than in front of the left term. -/
theorem joined_add_le (m n c : ℕ) : joined m n + c ≤ joined m (n + c) ∧
    (0 < c → joined m n + c < joined m (n + c)) := by
  have hsq : (n + c + 1) ^ 2 = (n + 1) ^ 2 + (2 * (n + 1) * c + c * c) := by ring
  have hcost : c ≤ 2 * (n + 1) * c := Nat.le_mul_of_pos_left c (by omega)
  have hsquare : c ≤ c * c := Nat.le_mul_self c
  simp only [joined, hsq]
  exact ⟨by omega, fun hc => by omega⟩

theorem UnaryOp.cost_pos {op : UnaryOp} (h : op ≠ .plus) : 0 < op.cost := by
  cases op with
  | minus => exact Nat.succ_pos 8
  | plus => exact absurd rfl h
  | onesComplement => exact Nat.one_pos

theorem regroupLeft_weight (t : Term) (op : BinaryOp) (e : Exp) :
    (regroupLeft t op e).weight ≤ joined e.weight t.weight ∧
      (¬t.OneSign → (regroupLeft t op e).weight < joined e.weight t.weight) := by
  cases t with
  | operand o => exact ⟨le_rfl, fun h => absurd trivial h⟩
  | paren e => exact ⟨le_rfl, fun h => absurd trivial h⟩
  | call0 place => exact ⟨le_rfl, fun h => absurd trivial h⟩
  | call place args => exact ⟨le_rfl, fun h => absurd trivial h⟩
  | unary u t =>
      cases t with
      | operand o => exact ⟨le_rfl, fun h => absurd trivial h⟩
      | paren e => exact ⟨le_rfl, fun h => absurd trivial h⟩
      | call0 place => exact ⟨le_rfl, fun h => absurd trivial h⟩
      | call place args => exact ⟨le_rfl, fun h => absurd trivial h⟩
      | unary u' t =>
          obtain ⟨hle, hlt⟩ := regroupLeft_weight (.unary u' t) op e
          obtain ⟨hcost, hcost'⟩ := joined_add_le e.weight (Term.unary u' t).weight u.cost
          have hweight : (regroupLeft (.unary u (.unary u' t)) op e).weight =
              (regroupLeft (.unary u' t) op e).weight + u.cost := rfl
          have hterm : (Term.unary u (.unary u' t)).weight =
              (Term.unary u' t).weight + u.cost := rfl
          rw [hweight, hterm]
          refine ⟨by omega, fun hsign => ?_⟩
          by_cases hu : u = .plus
          · have hrest := hlt fun h => hsign ⟨hu, h⟩
            omega
          · have hpos := hcost' (UnaryOp.cost_pos hu)
            omega
termination_by structural t

theorem regroupLeft_fits (t : Term) (ht : t.Fits) (op : BinaryOp) (e : Exp) (he : e.Fits) :
    (regroupLeft t op e).Fits := by
  cases t with
  | operand o => exact ⟨ht, he⟩
  | paren e => exact ⟨ht, he⟩
  | call0 place => exact ⟨ht, he⟩
  | call place args => exact ⟨ht, he⟩
  | unary u t =>
      cases t with
      | operand o => exact ⟨ht, he⟩
      | paren e => exact ⟨ht, he⟩
      | call0 place => exact ⟨ht, he⟩
      | call place args => exact ⟨ht, he⟩
      | unary u' t => exact regroupLeft_fits (.unary u' t) ht op e he
termination_by structural t

theorem Term.oneSign_of_regroup (t : Term) (ht : t.regroup.OneSign) : t.OneSign := by
  cases t with
  | operand o => trivial
  | paren e => trivial
  | call0 place => trivial
  | call place args => trivial
  | unary u t =>
      cases t with
      | operand o => trivial
      | paren e => trivial
      | call0 place => trivial
      | call place args => trivial
      | unary u' t => exact ⟨ht.1, (Term.unary u' t).oneSign_of_regroup ht.2⟩
termination_by structural t

mutual

theorem Term.weight_regroup (t : Term) :
    t.regroup.weight ≤ t.weight ∧ (¬t.Plain → t.regroup.weight < t.weight) := by
  cases t with
  | operand o => exact ⟨le_rfl, fun h => absurd trivial h⟩
  | unary op t =>
      obtain ⟨hle, hlt⟩ := t.weight_regroup
      exact ⟨Nat.add_le_add_right hle _, fun h => Nat.add_lt_add_right (hlt h) _⟩
  | paren e => exact e.weight_regroup
  | call0 place => exact ⟨le_rfl, fun h => absurd trivial h⟩
  | call place args => exact args.weight_regroup
termination_by structural t

/-- The tree that is solved weighs less, unless the expression is plain. -/
theorem Exp.weight_regroup (e : Exp) :
    e.regroup.weight ≤ e.weight ∧ (¬e.Plain → e.regroup.weight < e.weight) := by
  cases e with
  | last t => exact t.weight_regroup
  | binary t op e =>
      obtain ⟨hle, hlt⟩ := regroupLeft_weight t.regroup op e.regroup
      obtain ⟨ht, ht'⟩ := t.weight_regroup
      obtain ⟨he, he'⟩ := e.weight_regroup
      refine ⟨hle.trans (joined_le he ht), fun hplain => ?_⟩
      by_cases hsign : t.OneSign
      · refine hle.trans_lt (joined_lt he ht ?_)
        by_cases htplain : t.Plain
        · exact .inl (he' fun h => hplain ⟨hsign, htplain, h⟩)
        · exact .inr (ht' htplain)
      · have hregroup : ¬t.regroup.OneSign := fun h => hsign (t.oneSign_of_regroup h)
        exact (hlt hregroup).trans_le (joined_le he ht)
termination_by structural e

theorem Args.weight_regroup (args : Args) :
    args.regroup.weight ≤ args.weight ∧ (¬args.Plain → args.regroup.weight < args.weight) := by
  cases args with
  | one e => exact e.weight_regroup
  | cons e args =>
      obtain ⟨he, he'⟩ := e.weight_regroup
      obtain ⟨hargs, hargs'⟩ := args.weight_regroup
      refine ⟨Nat.add_le_add he hargs, fun hplain => ?_⟩
      by_cases heplain : e.Plain
      · exact Nat.add_lt_add_of_le_of_lt he (hargs' fun h => hplain ⟨heplain, h⟩)
      · exact Nat.add_lt_add_of_lt_of_le (he' heplain) hargs
termination_by structural args

end

theorem Args.count_regroup (args : Args) : args.regroup.count = args.count := by
  cases args with
  | one e => rfl
  | cons e args => exact congrArg (· + 1) args.count_regroup
termination_by structural args

mutual

theorem Term.fits_regroup (t : Term) (ht : t.Fits) : t.regroup.Fits := by
  cases t with
  | operand o => trivial
  | unary op t => exact t.fits_regroup ht
  | paren e => exact e.fits_regroup ht
  | call0 place => trivial
  | call place args => exact ⟨args.count_regroup ▸ ht.1, args.fits_regroup ht.2⟩
termination_by structural t

theorem Exp.fits_regroup (e : Exp) (he : e.Fits) : e.regroup.Fits := by
  cases e with
  | last t => exact t.fits_regroup he
  | binary t op e =>
      exact regroupLeft_fits t.regroup (t.fits_regroup he.1) op e.regroup (e.fits_regroup he.2)
termination_by structural e

theorem Args.fits_regroup (args : Args) (hargs : args.Fits) : args.regroup.Fits := by
  cases args with
  | one e => exact e.fits_regroup hargs
  | cons e args => exact ⟨e.fits_regroup hargs.1, args.fits_regroup hargs.2⟩
termination_by structural args

end

/-! ## The exact condition -/

section

variable {σ : Type} {ops : Operations σ}

mutual

theorem Term.fits_of_eval (t : Term) {v : Bytes} {user user' : σ}
    (h : t.eval ops user = some (v, user')) : t.Fits := by
  cases t with
  | operand o => trivial
  | unary op t =>
      obtain ⟨w, hw, -⟩ := Term.eval_unary h
      exact t.fits_of_eval hw
  | paren e => exact e.fits_of_eval h
  | call0 place => trivial
  | call place args =>
      obtain ⟨⟨vs, user₁⟩, hargs, hcall⟩ := Option.bind_eq_some_iff.1 h
      obtain ⟨hfits, hcount⟩ := args.fits_of_eval hargs
      simp only [Operations.call] at hcall
      split at hcall
      · rename_i hvs
        exact ⟨hcount ▸ hvs.1, hfits⟩
      · cases hcall
termination_by structural t

/-- An expression with a value fits. -/
theorem Exp.fits_of_eval (e : Exp) {v : Bytes} {user user' : σ}
    (h : e.eval ops user = some (v, user')) : e.Fits := by
  cases e with
  | last t => exact t.fits_of_eval h
  | binary t op e =>
      obtain ⟨⟨v₁, user₁⟩, he, -⟩ := Option.bind_eq_some_iff.1 h
      obtain ⟨v₂, ht, -⟩ := Exp.eval_binary he h
      exact ⟨t.fits_of_eval ht, e.fits_of_eval he⟩
termination_by structural e

theorem Args.fits_of_eval (args : Args) {vs : List Bytes} {user user' : σ}
    (h : args.eval ops user = some (vs, user')) : args.Fits ∧ vs.length = args.count := by
  cases args with
  | one e =>
      obtain ⟨v, he, rfl⟩ := Args.eval_one h
      exact ⟨e.fits_of_eval he, rfl⟩
  | cons e args =>
      obtain ⟨ws, v, user₁, hargs, he, rfl⟩ := Args.eval_cons h
      obtain ⟨hfits, hcount⟩ := args.fits_of_eval hargs
      refine ⟨⟨e.fits_of_eval he, hfits⟩, ?_⟩
      rw [List.length_append, hcount]
      rfl
termination_by structural args

end

end

/-- `expression()` finds the value of the parse tree, whatever the operators and functions are,
exactly when the tree is plain or has a call that no function takes. -/
theorem value_of_tree_iff {e : Exp} (hroom : e.queued.length ≤ MAX_Q) :
    ValueOf e ↔ (e.Fits → e.Plain) := by
  constructor
  · intro h hfits
    by_contra hplain
    obtain ⟨v, hv, hweight⟩ := e.eval_lengths hfits
    obtain ⟨w, hw, hweight'⟩ := e.regroup.eval_lengths (e.fits_regroup hfits)
    have hends : Ends [] := fun t ht => by cases ht
    have htree := h Unit lengths [] hends [] [] () v () hv
    have hsolved := expression_regroup lengths e hroom hends [] [] hw
    have heq : v = w := congrArg (fun r => r.2.token) (htree.unique hsolved)
    have hlt := e.weight_regroup.2 hplain
    rw [heq] at hweight
    omega
  · intro h σ ops rest hrest queue token user v user' hv
    have hplain := h (e.fits_of_eval hv)
    rw [← e.eval_regroup ops hplain] at hv
    exact expression_regroup ops e hroom hrest queue token hv

/-! ## Two signs -/

def intOperations : Operations Unit where
  addSubMultDiv type arg1 arg2 :=
    let i1 := scanInt arg1
    let i2 := scanInt arg2
    match type with
    | .plus => some (intText (i1 + i2))
    | .minus => some (intText (i2 - i1))
    | .mult => some (intText (i1 * i2))
    | _ => if i1 = 0 then none else some (intText (i2.tdiv i1))
  logicalBitwise _ _ _ := none
  onesComplement arg := some (intText (-scanInt arg - 1))
  concat arg1 arg2 delimiter := cString arg2 ++ delimiter ++ cString arg1
  strCmp type arg1 arg2 :=
    if cString arg2 = cString arg1 ↔ type = .strEqual then [chr '1'] else [chr '0']
  function _ _ _ _ _ user := ⟨1, [], none, user⟩

def number (text : Bytes) : Term :=
  .operand ⟨⟨.number, text, fun h => by cases h⟩, rfl⟩

/-- `- - 5 + 3`. -/
def twoSigns : Exp :=
  .binary (.unary .minus (.unary .minus (number [chr '5']))) ⟨.plus, rfl⟩
    (.last (number [chr '3']))

theorem two_signs_not_value_of_tree :
    ¬∀ e : Exp, e.queued.length ≤ MAX_Q → ValueOf e := by
  intro h
  have hroom : twoSigns.queued.length ≤ MAX_Q := by decide
  have hends : Ends [] := fun t ht => by cases ht
  have hvalue : twoSigns.eval intOperations () = some ([chr '8'], ()) := by decide +kernel
  have hregroup : twoSigns.regroup.eval intOperations () = some ([chr '2'], ()) := by
    decide +kernel
  have htree := h twoSigns hroom Unit intOperations [] hends [] [] () [chr '8'] () hvalue
  have hsolved := expression_regroup intOperations twoSigns hroom hends [] [] hregroup
  have heq : [chr '8'] = [chr '2'] := congrArg (fun r => r.2.token) (htree.unique hsolved)
  exact absurd heq (by decide)

/-- `- 5 + 3`. -/
def oneSign : Exp :=
  .binary (.unary .minus (number [chr '5'])) ⟨.plus, rfl⟩ (.last (number [chr '3']))

theorem value_of_tree_oneSign : ValueOf oneSign :=
  (value_of_tree_iff (e := oneSign) (by decide)).2 fun _ => ⟨trivial, trivial, trivial⟩

end ScOpen.Expression
