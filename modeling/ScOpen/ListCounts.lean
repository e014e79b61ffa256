import ScOpen.ListWalks

/-!
# Counting lists with loops

The count of a list is a walk over its body that adds the items outside of further brackets.
-/

namespace ScOpen

open Agreement

section

variable {σ κ : Type}

/-! ## The tokens of a message -/

theorem message_token (lang : Language σ) (place : ℕ) {tokens : List Token} {i : ℕ} {t : Token}
    (h : [t] <+: tokens.drop i) (saved : ℕ) (env : InterpEnv σ) :
    ∃ text, (t.type ≠ .variable_ → text = t.text) ∧
      getProgramToken (messageCommands lang place).evaluateToken ⟨tokens, i, saved, env⟩ =
        (t.type, text, ⟨tokens, i + 1, i, env⟩) := by
  have hget := getElem?_segment h
  by_cases ht : t.type = .variable_
  · refine ⟨lang.evaluateToken place t.text env.user, fun hne => absurd ht hne, ?_⟩
    simp only [getProgramToken, hget, ht, if_true]
    rfl
  · refine ⟨_, fun _ => rfl, ?_⟩
    simp only [getProgramToken, hget, ht, if_false]

theorem Token.IsWord.isValue {t : Token} (h : t.IsWord) : t.type.isValue = true := by
  rcases h with h | h | h | h <;> rw [h] <;> rfl

theorem LineToken.isValue (l : LineToken) : l.token.type.isValue = true := by
  rcases l.isLine with h | h <;> rw [h] <;> rfl

theorem ValueTokens.isValue {minus : Bool} {ts : List Token} (h : ValueTokens minus ts) :
    ∀ t ∈ ts, t.type.isValue = true := by
  induction h with
  | nil => exact List.forall_mem_nil _
  | one ht _ _ ih => exact List.forall_mem_cons.2 ⟨ht, ih⟩
  | signed _ hm ht _ ih =>
      refine List.forall_mem_cons.2 ⟨?_, List.forall_mem_cons.2 ⟨ht, ih⟩⟩
      rw [hm]
      rfl

/-! ## The count -/

/-- The count goes on from `p` to `q` and finds `k` items outside of brackets. -/
def CountsTo (cmds : EncodeCommands σ) (p q : Program σ) (k : ℕ) : Prop :=
  ∃ c, ∀ n nest cnt, countLoop cmds (n + c) nest cnt p =
    countLoop cmds n nest (if nest = 0 then cnt + k else cnt) q

theorem CountsTo.refl (cmds : EncodeCommands σ) (p : Program σ) : CountsTo cmds p p 0 :=
  ⟨0, fun n nest cnt => by simp only [Nat.add_zero, ite_self]⟩

theorem CountsTo.token {cmds : EncodeCommands σ} {p q : Program σ}
    (h : ∀ n nest cnt, countLoop cmds (n + 1) nest cnt p = countLoop cmds n nest cnt q) :
    CountsTo cmds p q 0 :=
  ⟨1, fun n nest cnt => by simp only [h, Nat.add_zero, ite_self]⟩

theorem CountsTo.trans {cmds : EncodeCommands σ} {p q r : Program σ} {j k : ℕ}
    (h : CountsTo cmds p q j) (h' : CountsTo cmds q r k) : CountsTo cmds p r (j + k) := by
  obtain ⟨c, hc⟩ := h
  obtain ⟨c', hc'⟩ := h'
  refine ⟨c' + c, fun n nest cnt => ?_⟩
  rw [← Nat.add_assoc, hc, hc']
  split
  · rw [Nat.add_assoc]
  · rfl

variable {lang : Language σ} {place : ℕ} {tokens : List Token} {i : ℕ}

theorem countsTo_value (lang : Language σ) (place : ℕ) {t : Token} (h : [t] <+: tokens.drop i)
    (ht : t.type.isValue = true) (saved : ℕ) (env : InterpEnv σ) :
    CountsTo (messageCommands lang place) ⟨tokens, i, saved, env⟩ ⟨tokens, i + 1, i, env⟩ 0 := by
  obtain ⟨text, -, hget⟩ := message_token lang place h saved env
  refine .token fun n nest cnt => ?_
  rw [countLoop, hget]
  cases htype : t.type <;> first
    | rfl
    | (rw [htype] at ht; cases ht)

theorem countsTo_values (lang : Language σ) (place : ℕ) {ts : List Token} (h : ts <+: tokens.drop i)
    (hts : ∀ t ∈ ts, t.type.isValue = true) (saved : ℕ) (env : InterpEnv σ) :
    ∃ saved', CountsTo (messageCommands lang place) ⟨tokens, i, saved, env⟩
      ⟨tokens, i + ts.length, saved', env⟩ 0 := by
  induction ts generalizing i saved with
  | nil => exact ⟨saved, CountsTo.refl _ _⟩
  | cons t ts ih =>
      obtain ⟨ht, hts⟩ := List.forall_mem_cons.1 hts
      obtain ⟨saved', hrest⟩ := ih (segment_tail h) hts i
      refine ⟨saved', ?_⟩
      have hfirst := countsTo_value lang place
        ((List.prefix_append [t] ts).trans h) ht saved env
      rw [List.length_cons, Nat.add_comm ts.length, ← Nat.add_assoc]
      exact hfirst.trans hrest

/-- The inside of brackets does not count. -/
theorem countsTo_brackets {j k saved' : ℕ} {env env' : InterpEnv σ}
    (hlt : [mark .lessThan rfl] <+: tokens.drop i) (hgt : [mark .greaterThan rfl] <+: tokens.drop j)
    (hinside : CountsTo (messageCommands lang place) ⟨tokens, i + 1, i, env⟩
      ⟨tokens, j, saved', env'⟩ k) (saved : ℕ) :
    CountsTo (messageCommands lang place) ⟨tokens, i, saved, env⟩
      ⟨tokens, j + 1, j, env'⟩ 1 := by
  obtain ⟨text, -, hget⟩ := message_token lang place hlt saved env
  obtain ⟨text', -, hget'⟩ := message_token lang place hgt saved' env'
  obtain ⟨c, hc⟩ := hinside
  refine ⟨1 + c + 1, fun n nest cnt => ?_⟩
  have hopen : countLoop (messageCommands lang place) (n + 1 + c + 1) nest cnt
      ⟨tokens, i, saved, env⟩ = countLoop (messageCommands lang place) (n + 1 + c) (nest + 1)
        (if nest = 0 then cnt + 1 else cnt) ⟨tokens, i + 1, i, env⟩ := by
    rw [countLoop, hget]
    rfl
  have hclose (cnt : ℕ) : countLoop (messageCommands lang place) (n + 1) (nest + 1) cnt
      ⟨tokens, j, saved', env'⟩ = countLoop (messageCommands lang place) n nest cnt
        ⟨tokens, j + 1, j, env'⟩ := by
    rw [countLoop, hget']
    simp only [mark, Nat.succ_ne_zero, if_false, Nat.add_sub_cancel]
  rw [← Nat.add_assoc, ← Nat.add_assoc, hopen, hc, if_neg (Nat.succ_ne_zero nest), hclose]

theorem countsTo_for (saved : ℕ) {env : InterpEnv σ} {q : Running σ}
    (h : [mark .for_ rfl] <+: tokens.drop i)
    (hfor : cmdFor lang ⟨tokens, i + 1, i, env⟩ = (0, q)) :
    CountsTo (messageCommands lang place) ⟨tokens, i, saved, env⟩ q 0 := by
  obtain ⟨text, -, hget⟩ := message_token lang place h saved env
  have hcmd : (messageCommands lang place).cmdFor ⟨tokens, i + 1, i, env⟩ = (0, q) := hfor
  refine .token fun n nest cnt => ?_
  rw [countLoop, hget]
  simp only [mark, hcmd, ne_eq, not_true_eq_false, if_false]

theorem countsTo_next (saved : ℕ) {env : InterpEnv σ} {q : Running σ}
    (h : [mark .next rfl] <+: tokens.drop i)
    (hnext : cmdNext lang ⟨tokens, i + 1, i, env⟩ = some (0, q)) :
    CountsTo (messageCommands lang place) ⟨tokens, i, saved, env⟩ q 0 := by
  obtain ⟨text, -, hget⟩ := message_token lang place h saved env
  have hcmd : (messageCommands lang place).cmdNext ⟨tokens, i + 1, i, env⟩ = (0, q) := by
    simp only [messageCommands, hnext, Option.getD_some]
  refine .token fun n nest cnt => ?_
  rw [countLoop, hget]
  simp only [mark, hcmd, ne_eq, not_true_eq_false, if_false]

/-! ## The count is a walk -/

theorem countsTo_item (d : DataItem) (saved : ℕ) (env : InterpEnv σ)
    (h : d.tokens <+: tokens.drop i) :
    CountsTo (messageCommands lang place) ⟨tokens, i, saved, env⟩
      ⟨tokens, i + d.tokens.length, i + d.tokens.length - 1, env⟩ 1 := by
  set inner := d.gap.map LineToken.token ++ d.word :: d.values with hinner
  have htokens : d.tokens = mark .lessThan rfl :: (inner ++ [mark .greaterThan rfl]) := by
    rw [DataItem.tokens, hinner, List.append_assoc, List.cons_append]
  have hvalues : ∀ t ∈ inner, t.type.isValue = true := by
    intro t ht
    rw [hinner, List.mem_append, List.mem_cons, List.mem_map] at ht
    rcases ht with ⟨l, -, rfl⟩ | rfl | ht
    · exact l.isValue
    · exact d.isWord.isValue
    · exact d.areValues.isValue t ht
  have hlen : d.tokens.length = 1 + inner.length + 1 := by
    rw [htokens, List.length_cons, List.length_append, List.length_singleton]
    omega
  rw [htokens] at h
  have hrest := segment_tail h
  obtain ⟨saved', hinside⟩ := countsTo_values lang place
    ((List.prefix_append _ _).trans hrest) hvalues i env
  have hitem := countsTo_brackets ((List.prefix_append [_] _).trans h)
    (segment_drop hrest) hinside saved
  rw [hlen, ← Nat.add_assoc, ← Nat.add_assoc, Nat.add_sub_cancel]
  exact hitem

theorem count_walker (lang : Language σ) (place : ℕ) (tokens : List Token) :
    Walker lang tokens (CountsTo (messageCommands lang place)) where
  refl := CountsTo.refl _
  trans := CountsTo.trans
  line l saved env h := countsTo_value lang place h l.isValue saved env
  item d saved env h := ⟨_, countsTo_item d saved env h⟩
  for_ := countsTo_for
  next := countsTo_next

theorem count_lists (vars : Variables σ κ) (lang : Language σ) (place : ℕ) (tokens : List Token) :
    Walker.Lists vars lang tokens (CountsTo (messageCommands lang place)) := by
  intro D S u u' v j i saved c w kids _ _ hword _ hgt
  have hvalues : ∀ t ∈ w.gap.map LineToken.token ++ [w.word], t.type.isValue = true := by
    intro t ht
    rw [List.mem_append, List.mem_singleton, List.mem_map] at ht
    rcases ht with ⟨l, -, rfl⟩ | rfl
    · exact l.isValue
    · exact w.isWord.isValue
  obtain ⟨saved', hstart⟩ := countsTo_values lang place
    (segment_tail hword) hvalues i ⟨c, v⟩
  have hidx : i + 1 + (w.gap.map LineToken.token ++ [w.word]).length = i + w.tokens.length := by
    rw [ListWord.tokens, List.length_cons]
    omega
  rw [hidx] at hstart
  refine ⟨v, saved', c, AgreeOff.refl S v, Control.Keeps.refl c, fun saved₂ env hkids => ?_⟩
  exact countsTo_brackets ((List.prefix_append [_] _).trans hword) hgt (hstart.trans hkids) saved

/-- The count of a body that a pass goes over. -/
theorem Pass.counts {vars : Variables σ κ} {D S : Set κ} {b : ListBody σ} {u u' v : σ} {k : ℕ}
    (hpass : Pass vars D (.body b) u S k u') (hv : AgreeOff vars.value D u v)
    (hb : b.Stands vars lang tokens i)
    (hgt : [mark .greaterThan rfl] <+: tokens.drop (i + b.tokens.length)) (place saved : ℕ)
    (control : Control) :
    ∃ v' saved' control', AgreeOff vars.value (D \ S) u' v' ∧ AgreeOff vars.value S v v' ∧
      control.Keeps control' ∧ ∃ c, ∀ n, getNumListElements (messageCommands lang place) (n + c)
        ⟨tokens, i, saved, ⟨control, v⟩⟩ = some (k, ⟨tokens, i, saved', ⟨control', v'⟩⟩) := by
  obtain ⟨v', saved', c', hagree, hv', hc', c, hcount⟩ := hpass.walks (count_walker lang place tokens)
    (count_lists vars lang place tokens) v i saved control hv trivial hb
  obtain ⟨text, -, hget⟩ := message_token lang place hgt saved' ⟨c', v'⟩
  refine ⟨v', i + b.tokens.length, c', hagree, hv', hc', 1 + c, fun n => ?_⟩
  have hend : countLoop (messageCommands lang place) (n + 1) 0 k
      ⟨tokens, i + (Task.body b).size, saved', ⟨c', v'⟩⟩ =
        some (k, ⟨tokens, i + b.tokens.length + 1, i + b.tokens.length, ⟨c', v'⟩⟩) := by
    rw [countLoop, Task.size, hget]
    rfl
  have hloop := hcount (n + 1) 0 0
  rw [if_pos rfl, Nat.zero_add, hend, Nat.add_assoc] at hloop
  rw [getNumListElements, hloop]
  rfl

end

end ScOpen
