import ScOpen.SecsEncodeItem

/-!
# Encoding rendered items

The encoder's main loop does not know the nesting: it goes through the tokens, writes a header
for each list from a count that looks ahead, and writes each other item when it meets it. Over
the tokens of a forest this gives the headers and data of the forest in order.
-/

namespace ScOpen

/-! ## Looking ahead -/

/-- A token that neither the count nor the main loop takes for a bracket, a command or the end. -/
def Token.IsPlain (t : Token) : Prop := t.IsWord ∨ t.type = .minus

theorem DecimalTokens.isPlain {ds : List Decimal} {ws : List Token} (h : DecimalTokens ds ws) :
    ∀ w ∈ ws, w.IsPlain := by
  induction h with
  | nil => simp
  | plain _ hw _ _ ih => exact List.forall_mem_cons.2 ⟨.inl hw, ih⟩
  | minusToken _ hm hw _ _ ih =>
      exact List.forall_mem_cons.2 ⟨.inr hm, List.forall_mem_cons.2 ⟨.inl hw, ih⟩⟩
  | minusText _ hw _ _ ih => exact List.forall_mem_cons.2 ⟨.inl hw, ih⟩

theorem isPlain_of_forall₂ {α : Type} {R : α → Token → Prop} {as : List α} {ws : List Token}
    (h : List.Forall₂ (fun a w => w.IsWord ∧ R a w) as ws) : ∀ w ∈ ws, w.IsPlain := by
  induction h with
  | nil => simp
  | cons hw _ ih => exact List.forall_mem_cons.2 ⟨.inl hw.1, ih⟩

theorem LeafTokens.isPlain {v : Leaf} {ws : List Token} (h : LeafTokens v ws) :
    ∀ w ∈ ws, w.IsPlain := by
  cases h with
  | ascii hws => exact fun w hw => .inl (hws w hw)
  | binary hws => exact isPlain_of_forall₂ hws
  | boolean hws => exact isPlain_of_forall₂ hws
  | integers hws => exact hws.isPlain

section

variable {σ : Type} (cmds : EncodeCommands σ) (tokens : List Token) (env : σ)

theorem countLoop_plain (n nest cnt i s : ℕ) {t : Token} {ts : List Token}
    (hp : tokens.drop i = t :: ts) (ht : t.IsPlain) :
    countLoop cmds (n + 1) nest cnt ⟨tokens, i, s, env⟩ =
      countLoop cmds n nest cnt ⟨tokens, i + 1, i, env⟩ := by
  have hvar : t.type ≠ .variable_ := by
    rcases ht with (h | h | h | h) | h <;> simp [h]
  have hget := getProgramToken_eq cmds.evaluateToken (p := ⟨tokens, i, s, env⟩) hp hvar
  rw [countLoop, hget]
  rcases ht with (h | h | h | h) | h <;> simp only [h]

theorem countLoop_plains (n nest cnt : ℕ) (ws : List Token) (hws : ∀ w ∈ ws, w.IsPlain)
    (i s : ℕ) {ts : List Token} (hp : tokens.drop i = ws ++ ts) :
    ∃ s', countLoop cmds (n + ws.length) nest cnt ⟨tokens, i, s, env⟩ =
      countLoop cmds n nest cnt ⟨tokens, i + ws.length, s', env⟩ := by
  induction ws generalizing i s with
  | nil => exact ⟨s, rfl⟩
  | cons w ws ih =>
      obtain ⟨s', hrun⟩ := ih (fun w' hw' => hws w' (by simp [hw'])) (i + 1) i
        (drop_succ_of_cons hp)
      refine ⟨s', ?_⟩
      rw [List.length_cons, ← Nat.add_assoc,
        countLoop_plain cmds tokens env _ _ _ _ _ hp (hws w (by simp)), hrun, Nat.add_right_comm,
        Nat.add_assoc]

theorem countLoop_lessThan (n nest cnt i s : ℕ) {t : Token} {ts : List Token}
    (hp : tokens.drop i = t :: ts) (ht : t.type = .lessThan) :
    countLoop cmds (n + 1) nest cnt ⟨tokens, i, s, env⟩ =
      countLoop cmds n (nest + 1) (if nest = 0 then cnt + 1 else cnt) ⟨tokens, i + 1, i, env⟩ := by
  have hget := getProgramToken_eq cmds.evaluateToken (p := ⟨tokens, i, s, env⟩) hp (by simp [ht])
  rw [countLoop, hget]
  simp only [ht]

theorem countLoop_greaterThan (n nest cnt i s : ℕ) {t : Token} {ts : List Token}
    (hp : tokens.drop i = t :: ts) (ht : t.type = .greaterThan) :
    countLoop cmds (n + 1) nest cnt ⟨tokens, i, s, env⟩ =
      if nest = 0 then some (cnt, ⟨tokens, i + 1, i, env⟩)
      else countLoop cmds n (nest - 1) cnt ⟨tokens, i + 1, i, env⟩ := by
  have hget := getProgramToken_eq cmds.evaluateToken (p := ⟨tokens, i, s, env⟩) hp (by simp [ht])
  rw [countLoop, hget]
  simp only [ht]

theorem countLoop_break (n nest cnt i s : ℕ) {t : Token} {ts : List Token}
    (hp : tokens.drop i = t :: ts) (ht : t.type = .endOfLine ∨ t.type = .lineNumber) :
    countLoop cmds (n + 1) nest cnt ⟨tokens, i, s, env⟩ =
      countLoop cmds n nest cnt ⟨tokens, i + 1, i, env⟩ := by
  have hvar : t.type ≠ .variable_ := by
    rcases ht with h | h <;> simp [h]
  have hget := getProgramToken_eq cmds.evaluateToken (p := ⟨tokens, i, s, env⟩) hp hvar
  rw [countLoop, hget]
  rcases ht with h | h <;> simp only [h]

/-- An item in brackets whose inside leaves the count alone. -/
theorem countLoop_bracket {lt w gt : Token} {ts us : List Token} (hlt : lt.type = .lessThan)
    (hw : w.IsWord) (hgt : gt.type = .greaterThan) (n nest cnt i s : ℕ)
    (hp : tokens.drop i = lt :: w :: (ts ++ gt :: us))
    (hinside : ∀ n nest cnt s, ∃ s',
      countLoop cmds (n + ts.length) (nest + 1) cnt ⟨tokens, i + 1 + 1, s, env⟩ =
        countLoop cmds n (nest + 1) cnt ⟨tokens, i + 1 + 1 + ts.length, s', env⟩) :
    countLoop cmds (n + 1 + ts.length + 1 + 1) nest cnt ⟨tokens, i, s, env⟩ =
      countLoop cmds n nest (if nest = 0 then cnt + 1 else cnt)
        ⟨tokens, i + 1 + 1 + ts.length + 1, i + 1 + 1 + ts.length, env⟩ := by
  have hp₁ := drop_succ_of_cons hp
  have hp₂ := drop_succ_of_cons hp₁
  have hp₃ := drop_add_of_append hp₂
  obtain ⟨s', hrun⟩ := hinside (n + 1) nest (if nest = 0 then cnt + 1 else cnt) (i + 1)
  rw [countLoop_lessThan cmds tokens env _ _ _ _ _ hp hlt,
    countLoop_plain cmds tokens env _ _ _ _ _ hp₁ (.inl hw), hrun,
    countLoop_greaterThan cmds tokens env _ _ _ _ _ hp₃ hgt, if_neg (Nat.succ_ne_zero nest),
    Nat.add_sub_cancel]

/-- The count goes over rendered items token by token and counts those at its own level. -/
theorem countLoop_renders {f : Sml} {ts : List Token} (hr : Renders f ts) (n nest cnt i s : ℕ)
    {us : List Token} (hp : tokens.drop i = ts ++ us) :
    ∃ s', countLoop cmds (n + ts.length) nest cnt ⟨tokens, i, s, env⟩ =
      countLoop cmds n nest (if nest = 0 then cnt + f.count else cnt)
        ⟨tokens, i + ts.length, s', env⟩ := by
  induction hr generalizing n nest cnt i s us with
  | done => exact ⟨s, by simp [Sml.count]⟩
  | @list kids next lt w gt ts vs hlt hw hword hgt _ _ ihkids ihnext =>
      simp only [List.cons_append, List.append_assoc] at hp
      have hp' := drop_succ_of_cons (drop_succ_of_cons hp)
      have hinside : ∀ n nest cnt s, ∃ s',
          countLoop cmds (n + ts.length) (nest + 1) cnt ⟨tokens, i + 1 + 1, s, env⟩ =
            countLoop cmds n (nest + 1) cnt ⟨tokens, i + 1 + 1 + ts.length, s', env⟩ := by
        intro n nest cnt s
        obtain ⟨s', hrun⟩ := ihkids n (nest + 1) cnt (i + 1 + 1) s hp'
        exact ⟨s', by rw [hrun, if_neg (Nat.succ_ne_zero nest)]⟩
      obtain ⟨s', hrun⟩ := ihnext n nest (if nest = 0 then cnt + 1 else cnt)
        (i + 1 + 1 + ts.length + 1) (i + 1 + 1 + ts.length)
        (drop_succ_of_cons (drop_add_of_append hp'))
      refine ⟨s', ?_⟩
      have hfuel : n + (lt :: w :: (ts ++ gt :: vs)).length =
          n + vs.length + 1 + ts.length + 1 + 1 := by
        simp only [List.length_cons, List.length_append]
        omega
      have hidx : i + (lt :: w :: (ts ++ gt :: vs)).length =
          i + 1 + 1 + ts.length + 1 + vs.length := by
        simp only [List.length_cons, List.length_append]
        omega
      rw [hfuel, countLoop_bracket cmds tokens env hlt hw hgt _ _ _ _ _ hp hinside, hrun, hidx]
      by_cases hnest : nest = 0
      · simp only [hnest, if_true, Sml.count]
        congr 1
        omega
      · simp only [hnest, if_false]
  | @leaf v next lt w gt ts vs hlt hw hword hgt hts _ ihnext =>
      simp only [List.cons_append, List.append_assoc] at hp
      have hp' := drop_succ_of_cons (drop_succ_of_cons hp)
      have hinside : ∀ n nest cnt s, ∃ s',
          countLoop cmds (n + ts.length) (nest + 1) cnt ⟨tokens, i + 1 + 1, s, env⟩ =
            countLoop cmds n (nest + 1) cnt ⟨tokens, i + 1 + 1 + ts.length, s', env⟩ :=
        fun n nest cnt s => countLoop_plains cmds tokens env n (nest + 1) cnt ts hts.isPlain
          (i + 1 + 1) s hp'
      obtain ⟨s', hrun⟩ := ihnext n nest (if nest = 0 then cnt + 1 else cnt)
        (i + 1 + 1 + ts.length + 1) (i + 1 + 1 + ts.length)
        (drop_succ_of_cons (drop_add_of_append hp'))
      refine ⟨s', ?_⟩
      have hfuel : n + (lt :: w :: (ts ++ gt :: vs)).length =
          n + vs.length + 1 + ts.length + 1 + 1 := by
        simp only [List.length_cons, List.length_append]
        omega
      have hidx : i + (lt :: w :: (ts ++ gt :: vs)).length =
          i + 1 + 1 + ts.length + 1 + vs.length := by
        simp only [List.length_cons, List.length_append]
        omega
      rw [hfuel, countLoop_bracket cmds tokens env hlt hw hgt _ _ _ _ _ hp hinside, hrun, hidx]
      by_cases hnest : nest = 0
      · simp only [hnest, if_true, Sml.count]
        congr 1
        omega
      · simp only [hnest, if_false]
  | @lineBreak f eol number ts heol hnumber _ ih =>
      have hp' := drop_succ_of_cons hp
      obtain ⟨s', hrun⟩ := ih n nest cnt (i + 1 + 1) (i + 1) (drop_succ_of_cons hp')
      refine ⟨s', ?_⟩
      have hfuel : n + (eol :: number :: ts).length = n + ts.length + 1 + 1 := by
        simp only [List.length_cons]
        omega
      have hidx : i + (eol :: number :: ts).length = i + 1 + 1 + ts.length := by
        simp only [List.length_cons]
        omega
      rw [hfuel, countLoop_break cmds tokens env _ _ _ _ _ hp (.inl heol),
        countLoop_break cmds tokens env _ _ _ _ _ hp' (.inr hnumber), hrun, hidx]

theorem getNumListElements_renders {kids : Sml} {gt : Token} {ts us : List Token}
    (hr : Renders kids ts) (hgt : gt.type = .greaterThan) (i s fuel : ℕ)
    (hfuel : ts.length < fuel) (hp : tokens.drop i = ts ++ gt :: us) :
    getNumListElements cmds fuel ⟨tokens, i, s, env⟩ =
      some (kids.count, ⟨tokens, i, i + ts.length, env⟩) := by
  obtain ⟨m, rfl⟩ := Nat.exists_eq_add_of_lt hfuel
  obtain ⟨s', hrun⟩ := countLoop_renders cmds tokens env hr (m + 1) 0 0 i s hp
  have hcount : countLoop cmds (ts.length + m + 1) 0 0 ⟨tokens, i, s, env⟩ =
      some (kids.count, ⟨tokens, i + ts.length + 1, i + ts.length, env⟩) := by
    rw [show ts.length + m + 1 = m + 1 + ts.length by omega, hrun,
      countLoop_greaterThan cmds tokens env _ _ _ _ _ (drop_add_of_append hp) hgt]
    simp
  simp only [getNumListElements, hcount, setProgramTokenIdx]
  rfl

/-! ## The main loop -/

def Sml.stored : Sml → Bytes
  | .done => []
  | .list kids next => itemHeader .list kids.count ++ kids.stored ++ next.stored
  | .leaf v next =>
      itemHeader v.secsType (v.storedData.length % 2 ^ 32) ++ v.storedData ++ next.stored

variable (scan : FloatScan)

/-- The brackets and the line breaks are passed over. -/
theorem encodeLoop_skip (n i s : ℕ) (buffer : Bytes) {t : Token} {ts : List Token}
    (hp : tokens.drop i = t :: ts)
    (ht : t.type = .lessThan ∨ t.type = .greaterThan ∨ t.type = .endOfLine ∨
      t.type = .lineNumber) :
    encodeLoop cmds scan (n + 1) ⟨⟨tokens, i, s, env⟩, 0, buffer⟩ =
      encodeLoop cmds scan n ⟨⟨tokens, i + 1, i, env⟩, 0, buffer⟩ := by
  have hvar : t.type ≠ .variable_ := by
    rcases ht with h | h | h | h <;> simp [h]
  have hget := getProgramToken_eq cmds.evaluateToken (p := ⟨tokens, i, s, env⟩) hp hvar
  simp only [encodeLoop, hget, ne_eq, not_true_eq_false, if_false]
  rcases ht with h | h | h | h <;> simp only [h]

theorem encodeLoop_word (n i s : ℕ) (buffer : Bytes) {w : Token} {ts : List Token}
    (hp : tokens.drop i = w :: ts) (hw : w.IsWord) {t : SecsType} {minus : Bool}
    {convert : Bytes → Converted} (hbranch : branchOf scan w.text = .item t minus convert) :
    encodeLoop cmds scan (n + 1) ⟨⟨tokens, i, s, env⟩, 0, buffer⟩ =
      (itemLoop cmds minus convert n ⟨tokens, i + 1, i, env⟩ ⟨[], 0, 0⟩ >>= fun r =>
        encodeLoop cmds scan n
          ⟨r.2, r.1.iret, buffer ++ itemHeader t r.1.numBytes ++ r.1.data⟩) := by
  have hget := getProgramToken_eq cmds.evaluateToken (p := ⟨tokens, i, s, env⟩) hp hw.ne_variable
  simp only [encodeLoop, hget, ne_eq, not_true_eq_false, if_false]
  rcases hw with h | h | h | h <;> simp only [h, hbranch]

theorem encodeLoop_listWord (n i s : ℕ) (buffer : Bytes) {w : Token} {ts : List Token}
    (hp : tokens.drop i = w :: ts) (hw : w.IsWord) (hbranch : branchOf scan w.text = .list) :
    encodeLoop cmds scan (n + 1) ⟨⟨tokens, i, s, env⟩, 0, buffer⟩ =
      (getNumListElements cmds n ⟨tokens, i + 1, i, env⟩ >>= fun r =>
        encodeLoop cmds scan n ⟨r.2, 0, buffer ++ itemHeader .list r.1⟩) := by
  have hget := getProgramToken_eq cmds.evaluateToken (p := ⟨tokens, i, s, env⟩) hp hw.ne_variable
  simp only [encodeLoop, hget, ne_eq, not_true_eq_false, if_false]
  rcases hw with h | h | h | h <;> simp only [h, hbranch]

/-- An item with data, from its `<` up to its `>`. -/
theorem encodeLoop_leaf {v : Leaf} {lt w gt : Token} {ts us : List Token}
    (hlt : lt.type = .lessThan) (hw : w.IsWord) (hword : w.text = v.secsType.word)
    (hgt : gt.type = .greaterThan) (hts : LeafTokens v ts) (n i s : ℕ) (buffer : Bytes)
    (hn : ts.length < n) (hp : tokens.drop i = lt :: w :: (ts ++ gt :: us)) :
    encodeLoop cmds scan (n + 1 + 1) ⟨⟨tokens, i, s, env⟩, 0, buffer⟩ =
      encodeLoop cmds scan n
        ⟨⟨tokens, i + 1 + 1 + ts.length, i + 1 + 1 + ts.length, env⟩,
          if v.rejected then 1 else 0,
          buffer ++ itemHeader v.secsType (v.storedData.length % 2 ^ 32) ++ v.storedData⟩ := by
  have hp₁ := drop_succ_of_cons hp
  have hbranch : branchOf scan w.text = .item v.secsType v.minus v.convert := by
    rw [hword, branchOf_word]
  have hitem := itemLoop_feeds cmds (feeds_leaf hts) hgt n hn
    ⟨tokens, i + 1 + 1, i + 1, env⟩ ⟨[], 0, 0⟩ (by decide) (drop_succ_of_cons hp₁)
  rw [encodeLoop_skip cmds tokens env scan _ _ _ _ hp (.inl hlt),
    encodeLoop_word cmds tokens env scan _ _ _ _ hp₁ hw hbranch, hitem]
  simp

/-- A list, from its `<` up to the first of its items. -/
theorem encodeLoop_listHeader {kids : Sml} {lt w gt : Token} {ts us : List Token}
    (hlt : lt.type = .lessThan) (hw : w.IsWord) (hword : w.text = SecsType.word .list)
    (hgt : gt.type = .greaterThan) (hkids : Renders kids ts) (n i s : ℕ) (buffer : Bytes)
    (hn : ts.length < n) (hp : tokens.drop i = lt :: w :: (ts ++ gt :: us)) :
    encodeLoop cmds scan (n + 1 + 1) ⟨⟨tokens, i, s, env⟩, 0, buffer⟩ =
      encodeLoop cmds scan n
        ⟨⟨tokens, i + 1 + 1, i + 1 + 1 + ts.length, env⟩, 0,
          buffer ++ itemHeader .list kids.count⟩ := by
  have hp₁ := drop_succ_of_cons hp
  have hbranch : branchOf scan w.text = .list := by
    rw [hword]
    rfl
  have hcount := getNumListElements_renders cmds tokens env hkids hgt (i + 1 + 1) (i + 1) n hn
    (drop_succ_of_cons hp₁)
  rw [encodeLoop_skip cmds tokens env scan _ _ _ _ hp (.inl hlt),
    encodeLoop_listWord cmds tokens env scan _ _ _ _ hp₁ hw hbranch, hcount]
  rfl

/-- The loop goes over rendered items and writes what is stored for them. -/
theorem encodeLoop_renders {f : Sml} {ts : List Token} (hr : Renders f ts)
    (hok : f.All fun v => v.rejected = false) (i s : ℕ) (buffer : Bytes) {us : List Token}
    (hp : tokens.drop i = ts ++ us) :
    ∃ k s', ∀ n, ts.length ≤ n →
      encodeLoop cmds scan (n + k) ⟨⟨tokens, i, s, env⟩, 0, buffer⟩ =
        encodeLoop cmds scan n ⟨⟨tokens, i + ts.length, s', env⟩, 0, buffer ++ f.stored⟩ := by
  induction hr generalizing i s buffer us with
  | done => exact ⟨0, s, fun n _ => by simp [Sml.stored]⟩
  | @list kids next lt w gt ts vs hlt hw hword hgt hkids _ ihkids ihnext =>
      simp only [List.cons_append, List.append_assoc] at hp
      have hp₂ := drop_succ_of_cons (drop_succ_of_cons hp)
      have hp₃ := drop_add_of_append hp₂
      have hlen : (lt :: w :: (ts ++ gt :: vs)).length = 1 + 1 + ts.length + 1 + vs.length := by
        simp only [List.length_cons, List.length_append]
        omega
      obtain ⟨k₁, s₁, hkidsrun⟩ := ihkids hok.1 (i + 1 + 1) (i + 1 + 1 + ts.length)
        (buffer ++ itemHeader .list kids.count) hp₂
      obtain ⟨k₂, s₂, hnext⟩ := ihnext hok.2 (i + 1 + 1 + ts.length + 1) (i + 1 + 1 + ts.length)
        (buffer ++ itemHeader .list kids.count ++ kids.stored) (drop_succ_of_cons hp₃)
      refine ⟨k₂ + 1 + k₁ + 1 + 1, s₂, fun n hn => ?_⟩
      rw [hlen] at hn ⊢
      rw [show n + (k₂ + 1 + k₁ + 1 + 1) = n + k₂ + 1 + k₁ + 1 + 1 by omega,
        encodeLoop_listHeader cmds tokens env scan hlt hw hword hgt hkids _ _ _ _ (by omega) hp,
        hkidsrun _ (by omega),
        encodeLoop_skip cmds tokens env scan _ _ _ _ hp₃ (.inr (.inl hgt)), hnext n (by omega)]
      simp only [Sml.stored, List.append_assoc, Nat.add_assoc]
  | @leaf v next lt w gt ts vs hlt hw hword hgt hts _ ihnext =>
      simp only [List.cons_append, List.append_assoc] at hp
      have hp₃ := drop_add_of_append (drop_succ_of_cons (drop_succ_of_cons hp))
      have hlen : (lt :: w :: (ts ++ gt :: vs)).length = 1 + 1 + ts.length + 1 + vs.length := by
        simp only [List.length_cons, List.length_append]
        omega
      obtain ⟨k, s', hnext⟩ := ihnext hok.2 (i + 1 + 1 + ts.length + 1) (i + 1 + 1 + ts.length)
        (buffer ++ itemHeader v.secsType (v.storedData.length % 2 ^ 32) ++ v.storedData)
        (drop_succ_of_cons hp₃)
      refine ⟨k + 1 + 1 + 1, s', fun n hn => ?_⟩
      rw [hlen] at hn ⊢
      have hrejected : (if v.rejected = true then 1 else 0) = 0 := by simp [hok.1]
      rw [show n + (k + 1 + 1 + 1) = n + k + 1 + 1 + 1 by omega,
        encodeLoop_leaf cmds tokens env scan hlt hw hword hgt hts _ _ _ _ (by omega) hp, hrejected,
        encodeLoop_skip cmds tokens env scan _ _ _ _ hp₃ (.inr (.inl hgt)), hnext n (by omega)]
      simp only [Sml.stored, List.append_assoc, Nat.add_assoc]
  | @lineBreak f eol number ts heol hnumber _ ih =>
      have hp₁ := drop_succ_of_cons hp
      obtain ⟨k, s', hrun⟩ := ih hok (i + 1 + 1) (i + 1) buffer (drop_succ_of_cons hp₁)
      have hlen : (eol :: number :: ts).length = 1 + 1 + ts.length := by
        simp only [List.length_cons]
        omega
      refine ⟨k + 1 + 1, s', fun n hn => ?_⟩
      rw [hlen] at hn ⊢
      rw [show n + (k + 1 + 1) = n + k + 1 + 1 by omega,
        encodeLoop_skip cmds tokens env scan _ _ _ _ hp (.inr (.inr (.inl heol))),
        encodeLoop_skip cmds tokens env scan _ _ _ _ hp₁ (.inr (.inr (.inr hnumber))),
        hrun n (by omega)]
      simp only [Nat.add_assoc]

end

end ScOpen
