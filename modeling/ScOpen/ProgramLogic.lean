import ScOpen.BehaviourSteps
import ScOpen.StructuredWhiles

/-!
# Proofs about structured programs

What is proved of the meaning of a structured program holds when the interpreter runs its tokens:
it comes to the end of the program, leaves its counters as they were, and the variables are as was
proved. Loops are proved by an invariant, a `for` by one about its values.
-/

namespace ScOpen

open Outcomes Settling

section

variable {σ : Type} {lang : Language σ} {tokens : List Token}

/-! ## Programs in their places -/

theorem segment_append {ts us : List Token} {i j : ℕ} (hts : ts <+: tokens.drop i)
    (hus : us <+: tokens.drop j) (hj : j = i + ts.length) : ts ++ us <+: tokens.drop i := by
  rw [hj, ← List.drop_drop] at hus
  obtain ⟨rest, hrest⟩ := hts
  rw [← hrest, List.drop_left] at hus
  rw [← hrest]
  exact (List.prefix_append_right_inj ts).2 hus

mutual

theorem Code.length_tokens (c : Code σ) : c.tokens.length = c.size := by
  cases c with
  | done => rfl
  | filler f next => rw [Code.tokens, Code.size, List.length_append, next.length_tokens]
  | statement s next =>
      rw [Code.tokens, Code.size, List.length_append, List.length_cons, next.length_tokens]
  | ifThen c body rest next =>
      rw [Code.tokens, Code.size, List.length_append, List.length_append, List.length_append,
        List.length_cons, body.length_tokens, rest.length_tokens, next.length_tokens]
  | whileLoop c body next =>
      rw [Code.tokens, Code.size, List.length_append, List.length_append, List.length_append,
        List.length_cons, List.length_singleton, body.length_tokens, next.length_tokens]
  | forLoop h body next =>
      rw [Code.tokens, Code.size, List.length_append, List.length_append, List.length_append,
        List.length_cons, body.length_tokens, next.length_tokens]
      rfl
  | continue_ next => rw [Code.tokens, Code.size, List.length_cons, next.length_tokens, add_comm]
  | breakLoop next => rw [Code.tokens, Code.size, List.length_cons, next.length_tokens, add_comm]
  | call c next =>
      rw [Code.tokens, Code.size, List.length_append, List.length_cons, next.length_tokens]
  | return_ next => rw [Code.tokens, Code.size, List.length_cons, next.length_tokens, add_comm]

theorem Branches.length_tokens (b : Branches σ) : b.tokens.length = b.size := by
  cases b with
  | endIf => rfl
  | else_ body =>
      rw [Branches.tokens, Branches.size, List.length_cons, List.length_append,
        List.length_singleton, body.length_tokens]
      omega
  | elseIf c body rest =>
      rw [Branches.tokens, Branches.size, List.length_append, List.length_append,
        List.length_cons, body.length_tokens, rest.length_tokens]

end

mutual

/-- Where a program stands, there are its tokens. -/
theorem Code.tokens_stand (c : Code σ) {i : ℕ} (h : c.Stands lang tokens i) :
    c.tokens <+: tokens.drop i := by
  cases c with
  | done => exact List.nil_prefix
  | filler f next => exact segment_append h.1 (next.tokens_stand h.2) rfl
  | statement s next => exact segment_append h.1.present (next.tokens_stand h.2) rfl
  | ifThen c body rest next =>
      obtain ⟨hif, hc, hbody, hrest, hnext⟩ := h
      have hhead : mark .if_ rfl :: c.tokens <+: tokens.drop i := segment_append hif hc.present rfl
      have hthen := segment_append hhead (body.tokens_stand hbody) rfl
      have hall := segment_append hthen (rest.tokens_stand hrest) (by
        rw [List.length_append, List.length_cons, body.length_tokens]
        omega)
      refine segment_append hall (next.tokens_stand hnext) ?_
      rw [List.length_append, List.length_append, List.length_cons, body.length_tokens,
        rest.length_tokens]
      omega
  | whileLoop c body next =>
      obtain ⟨hwhile, hc, hbody, hend, hnext⟩ := h
      have hhead : mark .while_ rfl :: c.tokens <+: tokens.drop i :=
        segment_append hwhile hc.present rfl
      have hall := segment_append (segment_append hhead (body.tokens_stand hbody) rfl) hend (by
        rw [List.length_append, List.length_cons, body.length_tokens]
        omega)
      refine segment_append hall (next.tokens_stand hnext) ?_
      rw [List.length_append, List.length_append, List.length_cons, body.length_tokens,
        List.length_singleton]
      omega
  | forLoop h body next =>
      obtain ⟨hfor, hh, hbody, hnext⟩ := h
      have hhead : mark .for_ rfl :: h.tokens <+: tokens.drop i :=
        segment_append hfor hh.present rfl
      have hall := segment_append (segment_append hhead (body.tokens_stand hbody) rfl) hh.next (by
        rw [List.length_append, List.length_cons, body.length_tokens]
        omega)
      refine segment_append hall (next.tokens_stand hnext) ?_
      rw [List.length_append, List.length_append, List.length_cons, body.length_tokens,
        List.length_cons, List.length_singleton]
      omega
  | continue_ next => exact segment_append h.1 (next.tokens_stand h.2) rfl
  | breakLoop next => exact segment_append h.1 (next.tokens_stand h.2) rfl
  | call c next => exact segment_append h.1.present (next.tokens_stand h.2) rfl
  | return_ next => exact segment_append h.1 (next.tokens_stand h.2) rfl

theorem Branches.tokens_stand (b : Branches σ) {i : ℕ} (h : b.Stands lang tokens i) :
    b.tokens <+: tokens.drop i := by
  cases b with
  | endIf => exact h
  | else_ body =>
      obtain ⟨helse, hbody, hend⟩ := h
      have hall := segment_append (body.tokens_stand hbody) hend (by rw [body.length_tokens])
      exact segment_append helse hall rfl
  | elseIf c body rest =>
      obtain ⟨helse, hc, hbody, hrest⟩ := h
      have hhead : mark .elseIf rfl :: c.tokens <+: tokens.drop i :=
        segment_append helse hc.present rfl
      refine segment_append (segment_append hhead (body.tokens_stand hbody) rfl)
        (rest.tokens_stand hrest) ?_
      rw [List.length_append, List.length_cons, body.length_tokens]
      omega

end

/-- The interpreter can follow a step of a program that stands in its place. -/
theorem Machine.Fit.proper {base : Outside} {m : Machine σ} {p : Running σ} (hfit : m.Fit)
    (hf : Follows lang tokens base m p) : m.Proper tokens p.programIdx := by
  obtain ⟨code, blocks, user⟩ := m
  cases code with
  | forLoop h body next =>
      intro entry _ _
      obtain ⟨-, -, hbody, -⟩ := hf.code
      have htokens := drop_segment (body.tokens_stand hbody)
      rw [htokens, ← body.length_tokens, List.take_left]
      exact hfit
  | breakLoop next => exact hfit
  | return_ next => exact hfit
  | _ => trivial

/-! ## Running what was proved -/

variable {subs : ℕ → Option (Code σ)}

mutual

theorem Code.functional {f : ℕ → Behaviour σ} (hf : ∀ target, Functional (f target))
    (c : Code σ) : Functional (c.behaviour f) := by
  cases c with
  | done => exact functional_leaves .falls
  | filler g next => exact next.functional hf
  | statement s next => exact (functional_does s.run).andThen (next.functional hf)
  | ifThen c body rest next =>
      refine Functional.andThen (.choosing fun b => ?_) (next.functional hf)
      cases b with
      | true => exact body.functional hf
      | false => exact rest.functional hf
  | whileLoop c body next =>
      refine Functional.andThen (.choosing fun b => ?_) (next.functional hf)
      cases b with
      | true => exact ((body.functional hf).only _).rounds _
      | false => exact functional_leaves .falls
  | forLoop h body next =>
      refine Functional.andThen (.choosing fun entry => ?_) (next.functional hf)
      by_cases hskip : entry.first > entry.limit
      · rw [if_pos hskip]
        exact functional_leaves .falls
      · rw [if_neg hskip]
        exact ((body.functional hf).only _).rounds _
  | continue_ next => exact functional_leaves .continues
  | breakLoop next => exact functional_leaves .breaks
  | call c next => exact ((hf c.target).called c.run).andThen (next.functional hf)
  | return_ next => exact functional_leaves .returns

theorem Branches.functional {f : ℕ → Behaviour σ} (hf : ∀ target, Functional (f target))
    (b : Branches σ) : Functional (b.behaviour f) := by
  cases b with
  | endIf => exact functional_leaves .falls
  | else_ body => exact body.functional hf
  | elseIf c body rest =>
      apply Functional.choosing
      intro b
      cases b with
      | true => exact body.functional hf
      | false => exact rest.functional hf

end

theorem subroutines_functional (subs : ℕ → Option (Code σ)) (n target : ℕ) :
    Functional (subroutines subs n target) := by
  induction n generalizing target with
  | zero =>
      intro s e t e' t' h
      exact h.elim
  | succ n ih =>
      rintro s e t e' t' ⟨body, hbody, h⟩ ⟨body', hbody', h'⟩
      obtain rfl := Option.some.inj (hbody.symm.trans hbody')
      exact body.functional ih h h'

/-- However deep the calls may be, a program does one thing. -/
theorem Code.same (c : Code σ) {n n' : ℕ} {s t t' : σ} {e e' : Exit}
    (h : c.behaviour (subroutines subs n) s e t)
    (h' : c.behaviour (subroutines subs n') s e' t') : e = e' ∧ t = t' :=
  c.functional (subroutines_functional subs (max n n')) (c.deeper (le_max_left n n') h)
    (c.deeper (le_max_right n n') h')

end

end ScOpen
