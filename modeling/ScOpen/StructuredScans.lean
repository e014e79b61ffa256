import ScOpen.StructuredCode

/-!
# Scans over structured programs

What the four scans have in common is stated once: how a scan's state changes at each bracket. Any
such scan goes over a structured program as if it were not there.
-/

namespace ScOpen

theorem drop_segment {α : Type} {l ts : List α} {i : ℕ} (h : ts <+: l.drop i) :
    l.drop i = ts ++ l.drop (i + ts.length) := by
  obtain ⟨rest, hrest⟩ := h
  rw [← List.drop_drop, ← hrest, List.drop_left]

structure Skips {S : Type} (scan : S → List Token → ℕ) (upIf upWhile upFor : S → S) : Prop where
  plain : ∀ s t ts, t.type.isScanned = false → scan s (t :: ts) = scan s ts + 1
  ifOpen : ∀ s t ts, t.type = .if_ → scan s (t :: ts) = scan (upIf s) ts + 1
  ifNext : ∀ s t ts, t.type = .else_ ∨ t.type = .elseIf →
    scan (upIf s) (t :: ts) = scan (upIf s) ts + 1
  ifClose : ∀ s t ts, t.type = .endIf → scan (upIf s) (t :: ts) = scan s ts + 1
  whileOpen : ∀ s t ts, t.type = .while_ → scan s (t :: ts) = scan (upWhile s) ts + 1
  whileClose : ∀ s t ts, t.type = .endWhile → scan (upWhile s) (t :: ts) = scan s ts + 1
  forOpen : ∀ s t ts, t.type = .for_ → scan s (t :: ts) = scan (upFor s) ts + 1
  forClose : ∀ s t ts, t.type = .next → scan (upFor s) (t :: ts) = scan s ts + 1

theorem Neutral.append {ts us : List Token} (hts : Neutral ts) (hus : Neutral us) :
    Neutral (ts ++ us) := by
  induction hts with
  | nil => exact hus
  | token ht _ ih => exact .token ht ih
  | loop hf hn hinside _ _ ihnext =>
      rw [List.cons_append, List.append_assoc, List.cons_append]
      exact .loop hf hn hinside ihnext

theorem ForHead.neutral_tokens {σ : Type} (h : ForHead σ) : Neutral h.tokens := by
  have hstep : Neutral (h.step.elim [] fun e => mark .step rfl :: e.tokens) := by
    cases h.step with
    | none => exact .nil
    | some e => exact .token rfl e.neutral
  exact .token rfl (.token rfl (h.first.neutral.append (.token rfl (h.limit.neutral.append hstep))))

theorem Filler.neutral (f : Filler) : Neutral f.tokens := by
  rcases f.shape with ⟨t, htokens, htype⟩ | ⟨t, x, y, htokens, htype, hx, hy⟩
  · rw [htokens]
    refine .token ?_ .nil
    simp only [List.mem_cons, List.not_mem_nil, or_false] at htype
    rcases htype with h | h | h | h <;> rw [h] <;> rfl
  · rw [htokens]
    refine .token ?_ (.token hx (.token hy .nil))
    rw [htype]
    rfl

section

variable {S : Type} {scan : S → List Token → ℕ} {upIf upWhile upFor : S → S}

theorem Skips.neutral (hscan : Skips scan upIf upWhile upFor) {ts : List Token} (h : Neutral ts)
    (s : S) (rest : List Token) : scan s (ts ++ rest) = scan s rest + ts.length := by
  induction h generalizing s rest with
  | nil => rfl
  | @token t ts ht _ ih =>
      rw [List.cons_append, hscan.plain s t _ ht, ih, List.length_cons]
      rfl
  | @loop f n ts us hf hn _ _ ihts ihus =>
      rw [List.cons_append, List.append_assoc, List.cons_append, hscan.forOpen s f _ hf, ihts,
        hscan.forClose s n _ hn, ihus]
      simp only [List.length_cons, List.length_append]
      omega

variable {σ : Type} {lang : Language σ} {tokens : List Token}

theorem Skips.segment (hscan : Skips scan upIf upWhile upFor) {ts : List Token} {i : ℕ}
    (hts : Neutral ts) (h : ts <+: tokens.drop i) (s : S) :
    scan s (tokens.drop i) = scan s (tokens.drop (i + ts.length)) + ts.length := by
  rw [drop_segment h, hscan.neutral hts]

mutual

theorem Skips.code (hscan : Skips scan upIf upWhile upFor) (code : Code σ) (i : ℕ)
    (h : code.Stands lang tokens i) (s : S) :
    scan s (tokens.drop i) = scan s (tokens.drop (i + code.size)) + code.size := by
  cases code with
  | done => rfl
  | filler f next =>
      have hnext := Skips.code hscan next _ h.2 s
      rw [hscan.segment f.neutral h.1, hnext]
      simp only [Code.size, ← Nat.add_assoc]
      omega
  | statement st next =>
      have hnext := Skips.code hscan next _ h.2 s
      have hseg := hscan.segment st.neutral h.1.present s
      rw [List.length_cons] at hseg
      rw [hseg, hnext]
      simp only [Code.size, ← Nat.add_assoc]
      omega
  | ifThen c body rest next =>
      obtain ⟨hif, hc, hbody, hrest, hnext⟩ := h
      have hseg := hscan.segment c.neutral hc.present (upIf s)
      have hbody' := Skips.code hscan body _ hbody (upIf s)
      have hrest' := Skips.branches hscan rest _ hrest s
      have hnext' := Skips.code hscan next _ hnext s
      rw [Nat.add_assoc, Nat.add_comm 1] at hseg
      rw [drop_segment hif, List.singleton_append, hscan.ifOpen s _ _ rfl]
      simp only [List.length_singleton]
      rw [hseg, hbody', hrest', hnext']
      simp only [Code.size, ← Nat.add_assoc]
      omega
  | whileLoop c body next =>
      obtain ⟨hwhile, hc, hbody, hend, hnext⟩ := h
      have hseg := hscan.segment c.neutral hc.present (upWhile s)
      have hbody' := Skips.code hscan body _ hbody (upWhile s)
      have hnext' := Skips.code hscan next _ hnext s
      rw [Nat.add_assoc, Nat.add_comm 1] at hseg
      rw [drop_segment hwhile, List.singleton_append, hscan.whileOpen s _ _ rfl]
      simp only [List.length_singleton]
      rw [hseg, hbody', drop_segment hend, List.singleton_append, hscan.whileClose s _ _ rfl]
      simp only [List.length_singleton]
      rw [hnext']
      simp only [Code.size, ← Nat.add_assoc]
      omega
  | forLoop hd body next =>
      obtain ⟨hfor, hhead, hbody, hnext⟩ := h
      have hseg := hscan.segment hd.neutral_tokens hhead.present (upFor s)
      have hbody' := Skips.code hscan body _ hbody (upFor s)
      have hnext' := Skips.code hscan next _ hnext s
      have hword : (word hd.name).type.isScanned = false := rfl
      rw [Nat.add_assoc, Nat.add_comm 1] at hseg
      rw [drop_segment hfor, List.singleton_append, hscan.forOpen s _ _ rfl]
      simp only [List.length_singleton]
      rw [hseg, hbody', drop_segment hhead.next, List.cons_append, List.singleton_append,
        hscan.forClose s _ _ rfl, hscan.plain s _ _ hword]
      simp only [List.length_cons, List.length_nil]
      rw [hnext']
      simp only [Code.size, ← Nat.add_assoc]
      omega
  | continue_ next =>
      have hnext := Skips.code hscan next _ h.2 s
      rw [drop_segment h.1, List.singleton_append, hscan.plain s _ _ rfl]
      simp only [List.length_singleton]
      rw [hnext]
      simp only [Code.size, ← Nat.add_assoc]
      omega
  | breakLoop next =>
      have hnext := Skips.code hscan next _ h.2 s
      rw [drop_segment h.1, List.singleton_append, hscan.plain s _ _ rfl]
      simp only [List.length_singleton]
      rw [hnext]
      simp only [Code.size, ← Nat.add_assoc]
      omega
  | call c next =>
      have hnext := Skips.code hscan next _ h.2 s
      have hseg := hscan.segment (.token rfl c.neutral) h.1.present s
      rw [List.length_cons] at hseg
      rw [hseg, hnext]
      simp only [Code.size, ← Nat.add_assoc]
      omega
  | return_ next =>
      have hnext := Skips.code hscan next _ h.2 s
      rw [drop_segment h.1, List.singleton_append, hscan.plain s _ _ rfl]
      simp only [List.length_singleton]
      rw [hnext]
      simp only [Code.size, ← Nat.add_assoc]
      omega
termination_by structural code

theorem Skips.branches (hscan : Skips scan upIf upWhile upFor) (b : Branches σ) (i : ℕ)
    (h : b.Stands lang tokens i) (s : S) :
    scan (upIf s) (tokens.drop i) = scan s (tokens.drop (i + b.size)) + b.size := by
  cases b with
  | endIf =>
      rw [drop_segment h, List.singleton_append, hscan.ifClose s _ _ rfl]
      rfl
  | else_ body =>
      obtain ⟨helse, hbody, hend⟩ := h
      have hbody' := Skips.code hscan body _ hbody (upIf s)
      rw [drop_segment helse, List.singleton_append, hscan.ifNext s _ _ (.inl rfl)]
      simp only [List.length_singleton]
      rw [hbody', drop_segment hend, List.singleton_append, hscan.ifClose s _ _ rfl]
      simp only [Branches.size, List.length_singleton, ← Nat.add_assoc]
  | elseIf c body rest =>
      obtain ⟨helse, hc, hbody, hrest⟩ := h
      have hseg := hscan.segment c.neutral hc.present (upIf s)
      have hbody' := Skips.code hscan body _ hbody (upIf s)
      have hrest' := Skips.branches hscan rest _ hrest s
      rw [Nat.add_assoc, Nat.add_comm 1] at hseg
      rw [drop_segment helse, List.singleton_append, hscan.ifNext s _ _ (.inr rfl)]
      simp only [List.length_singleton]
      rw [hseg, hbody', hrest']
      simp only [Branches.size, ← Nat.add_assoc]
      omega
termination_by structural b

end

end

/-! ## The scans of the commands -/

theorem ne_of_not_scanned {type type' : TokenType} (h : type.isScanned = false)
    (h' : type'.isScanned = true) : type ≠ type' := by
  rintro rfl
  rw [h] at h'
  cases h'

theorem nestedEnd_plain {opening closing : TokenType} (ho : opening.isScanned = true)
    (hc : closing.isScanned = true) (s : ℕ) (t : Token) (ts : List Token)
    (ht : t.type.isScanned = false) :
    nestedEnd opening closing s (t :: ts) = nestedEnd opening closing s ts + 1 := by
  have hnull : t.type ≠ .nullToken := ne_of_not_scanned ht rfl
  rw [nestedEnd, if_neg hnull, if_neg (ne_of_not_scanned ht ho), if_neg (ne_of_not_scanned ht hc)]

theorem skips_ifNestedEnd : Skips (nestedEnd .if_ .endIf) (· + 1) id id where
  plain := nestedEnd_plain rfl rfl
  ifOpen s t ts ht := by simp only [nestedEnd, ht, reduceCtorEq, if_false, if_true]
  ifNext s t ts ht := by
    rcases ht with ht | ht <;> simp only [nestedEnd, ht, reduceCtorEq, if_false]
  ifClose s t ts ht := by
    simp only [nestedEnd, ht, reduceCtorEq, if_false, if_true, Nat.succ_ne_zero,
      Nat.add_sub_cancel]
  whileOpen s t ts ht := by simp only [nestedEnd, ht, reduceCtorEq, if_false, id]
  whileClose s t ts ht := by simp only [nestedEnd, ht, reduceCtorEq, if_false, id]
  forOpen s t ts ht := by simp only [nestedEnd, ht, reduceCtorEq, if_false, id]
  forClose s t ts ht := by simp only [nestedEnd, ht, reduceCtorEq, if_false, id]

theorem skips_whileNestedEnd : Skips (nestedEnd .while_ .endWhile) id (· + 1) id where
  plain := nestedEnd_plain rfl rfl
  ifOpen s t ts ht := by simp only [nestedEnd, ht, reduceCtorEq, if_false, id]
  ifNext s t ts ht := by
    rcases ht with ht | ht <;> simp only [nestedEnd, ht, reduceCtorEq, if_false, id]
  ifClose s t ts ht := by simp only [nestedEnd, ht, reduceCtorEq, if_false, id]
  whileOpen s t ts ht := by simp only [nestedEnd, ht, reduceCtorEq, if_false, if_true]
  whileClose s t ts ht := by
    simp only [nestedEnd, ht, reduceCtorEq, if_false, if_true, Nat.succ_ne_zero,
      Nat.add_sub_cancel]
  forOpen s t ts ht := by simp only [nestedEnd, ht, reduceCtorEq, if_false, id]
  forClose s t ts ht := by simp only [nestedEnd, ht, reduceCtorEq, if_false, id]

theorem skips_ifEnd : Skips ifEnd (· + 1) id id where
  plain s t ts ht := by
    rw [ifEnd]
    split <;> first | rfl | (rename_i h; rw [h] at ht; cases ht)
  ifOpen s t ts ht := by simp only [ifEnd, ht]
  ifNext s t ts ht := by
    rcases ht with ht | ht <;> simp only [ifEnd, ht, Nat.succ_ne_zero, if_false]
  ifClose s t ts ht := by simp only [ifEnd, ht, Nat.succ_ne_zero, if_false, Nat.add_sub_cancel]
  whileOpen s t ts ht := by simp only [ifEnd, ht, id]
  whileClose s t ts ht := by simp only [ifEnd, ht, id]
  forOpen s t ts ht := by simp only [ifEnd, ht, id]
  forClose s t ts ht := by simp only [ifEnd, ht, id]

theorem skips_loopEnd : Skips (fun s : ℕ × ℕ => loopEnd s.1 s.2) id (fun s => (s.1, s.2 + 1))
    (fun s => (s.1 + 1, s.2)) where
  plain s t ts ht := by
    rw [loopEnd]
    split <;> first | rfl | (rename_i h; rw [h] at ht; cases ht)
  ifOpen s t ts ht := by simp only [loopEnd, ht, id]
  ifNext s t ts ht := by
    rcases ht with ht | ht <;> simp only [loopEnd, ht, id]
  ifClose s t ts ht := by simp only [loopEnd, ht, id]
  whileOpen s t ts ht := by simp only [loopEnd, ht]
  whileClose s t ts ht := by
    simp only [loopEnd, ht, Nat.succ_ne_zero, if_false, Nat.add_sub_cancel]
  forOpen s t ts ht := by simp only [loopEnd, ht]
  forClose s t ts ht := by
    simp only [loopEnd, ht, Nat.succ_ne_zero, if_false, Nat.add_sub_cancel]

end ScOpen
