import ScOpen.SecsEncodeTree

/-!
# Refused values

The unsigned types refuse a text that starts with a sign. The main loop finishes the item and
ends there, so what is written stops with the first item that holds such a value.
-/

namespace ScOpen

def Sml.refused : Sml → Bool
  | .done => false
  | .list kids next => kids.refused || next.refused
  | .leaf v next => v.rejected || next.refused

def Sml.written : Sml → Bytes
  | .done => []
  | .list kids next =>
      itemHeader .list kids.count ++ kids.written ++ if kids.refused then [] else next.written
  | .leaf v next =>
      itemHeader v.secsType (v.storedData.length % 2 ^ 32) ++ v.storedData ++
        if v.rejected then [] else next.written

theorem Sml.refused_eq_false_iff (f : Sml) :
    f.refused = false ↔ f.All fun v => v.rejected = false := by
  induction f with
  | done => simp [Sml.refused, Sml.All]
  | list kids next ihkids ihnext => simp [Sml.refused, Sml.All, ihkids, ihnext]
  | leaf v next ih => simp [Sml.refused, Sml.All, ih]

theorem Sml.written_of_not_refused {f : Sml} (h : f.refused = false) : f.written = f.stored := by
  induction f with
  | done => rfl
  | list kids next ihkids ihnext =>
      simp only [Sml.refused, Bool.or_eq_false_iff] at h
      simp only [Sml.written, Sml.stored, h.1, ihkids h.1, ihnext h.2, Bool.false_eq_true, if_false]
  | leaf v next ih =>
      simp only [Sml.refused, Bool.or_eq_false_iff] at h
      simp only [Sml.written, Sml.stored, h.1, ih h.2, Bool.false_eq_true, if_false]

section

variable {σ : Type} (cmds : EncodeCommands σ) (tokens : List Token) (env : σ) (scan : FloatScan)

theorem encodeLoop_stops (n i s : ℕ) (buffer : Bytes) :
    encodeLoop cmds scan (n + 1) ⟨⟨tokens, i, s, env⟩, 1, buffer⟩ =
      some ⟨⟨tokens, i, s, env⟩, 1, buffer⟩ := by
  rw [encodeLoop, if_pos one_ne_zero]

/-- With a refused value the loop ends there with an error. -/
theorem encodeLoop_refused {f : Sml} {ts : List Token} (hr : Renders f ts)
    (href : f.refused = true) (i s : ℕ) (buffer : Bytes) {us : List Token}
    (hp : tokens.drop i = ts ++ us) :
    ∃ k p', ∀ n, ts.length ≤ n →
      encodeLoop cmds scan (n + k) ⟨⟨tokens, i, s, env⟩, 0, buffer⟩ =
        some ⟨p', 1, buffer ++ f.written⟩ := by
  induction hr generalizing i s buffer us with
  | done => cases href
  | @list kids next lt w gt ts vs hlt hw hword hgt hkids _ ihkids ihnext =>
      simp only [List.cons_append, List.append_assoc] at hp
      have hp₂ := drop_succ_of_cons (drop_succ_of_cons hp)
      have hp₃ := drop_add_of_append hp₂
      have hlen : (lt :: w :: (ts ++ gt :: vs)).length = 1 + 1 + ts.length + 1 + vs.length := by
        simp only [List.length_cons, List.length_append]
        omega
      cases hkidsref : kids.refused with
      | true =>
          obtain ⟨k, p', hrun⟩ := ihkids hkidsref (i + 1 + 1) (i + 1 + 1 + ts.length)
            (buffer ++ itemHeader .list kids.count) hp₂
          refine ⟨k + 1 + 1, p', fun n hn => ?_⟩
          rw [hlen] at hn
          rw [show n + (k + 1 + 1) = n + k + 1 + 1 by omega,
            encodeLoop_listHeader cmds tokens env scan hlt hw hword hgt hkids _ _ _ _ (by omega) hp,
            hrun n (by omega)]
          simp only [Sml.written, hkidsref, if_true, List.append_assoc, List.append_nil]
      | false =>
          have hnextref : next.refused = true := by simpa [Sml.refused, hkidsref] using href
          obtain ⟨k₁, s₁, hkidsrun⟩ := encodeLoop_renders cmds tokens env scan hkids
            (kids.refused_eq_false_iff.1 hkidsref) (i + 1 + 1) (i + 1 + 1 + ts.length)
            (buffer ++ itemHeader .list kids.count) hp₂
          obtain ⟨k₂, p', hrun⟩ := ihnext hnextref (i + 1 + 1 + ts.length + 1)
            (i + 1 + 1 + ts.length) (buffer ++ itemHeader .list kids.count ++ kids.stored)
            (drop_succ_of_cons hp₃)
          refine ⟨k₂ + 1 + k₁ + 1 + 1, p', fun n hn => ?_⟩
          rw [hlen] at hn
          rw [show n + (k₂ + 1 + k₁ + 1 + 1) = n + k₂ + 1 + k₁ + 1 + 1 by omega,
            encodeLoop_listHeader cmds tokens env scan hlt hw hword hgt hkids _ _ _ _ (by omega) hp,
            hkidsrun _ (by omega),
            encodeLoop_skip cmds tokens env scan _ _ _ _ hp₃ (.inr (.inl hgt)), hrun n (by omega)]
          simp only [Sml.written, hkidsref, Sml.written_of_not_refused hkidsref,
            Bool.false_eq_true, if_false, List.append_assoc]
  | @leaf v next lt w gt ts vs hlt hw hword hgt hts _ ihnext =>
      simp only [List.cons_append, List.append_assoc] at hp
      have hp₃ := drop_add_of_append (drop_succ_of_cons (drop_succ_of_cons hp))
      have hlen : (lt :: w :: (ts ++ gt :: vs)).length = 1 + 1 + ts.length + 1 + vs.length := by
        simp only [List.length_cons, List.length_append]
        omega
      cases hrej : v.rejected with
      | true =>
          refine ⟨1 + 1, ⟨tokens, i + 1 + 1 + ts.length, i + 1 + 1 + ts.length, env⟩,
            fun n hn => ?_⟩
          rw [hlen] at hn
          obtain ⟨m, rfl⟩ : ∃ m, n = m + 1 := ⟨n - 1, by omega⟩
          have hitem := encodeLoop_leaf cmds tokens env scan hlt hw hword hgt hts (m + 1) i s buffer
            (by omega) hp
          rw [hrej, if_pos rfl, encodeLoop_stops] at hitem
          rw [← Nat.add_assoc, hitem]
          simp only [Sml.written, hrej, if_true, List.append_assoc, List.append_nil]
      | false =>
          have hnextref : next.refused = true := by simpa [Sml.refused, hrej] using href
          obtain ⟨k, p', hrun⟩ := ihnext hnextref (i + 1 + 1 + ts.length + 1)
            (i + 1 + 1 + ts.length)
            (buffer ++ itemHeader v.secsType (v.storedData.length % 2 ^ 32) ++ v.storedData)
            (drop_succ_of_cons hp₃)
          refine ⟨k + 1 + 1 + 1, p', fun n hn => ?_⟩
          rw [hlen] at hn
          have hstatus : (if v.rejected = true then 1 else 0) = 0 := by simp [hrej]
          rw [show n + (k + 1 + 1 + 1) = n + k + 1 + 1 + 1 by omega,
            encodeLoop_leaf cmds tokens env scan hlt hw hword hgt hts _ _ _ _ (by omega) hp,
            hstatus, encodeLoop_skip cmds tokens env scan _ _ _ _ hp₃ (.inr (.inl hgt)),
            hrun n (by omega)]
          simp only [Sml.written, hrej, Bool.false_eq_true, if_false, List.append_assoc]
  | @lineBreak f eol number ts heol hnumber _ ih =>
      have hp₁ := drop_succ_of_cons hp
      obtain ⟨k, p', hrun⟩ := ih href (i + 1 + 1) (i + 1) buffer (drop_succ_of_cons hp₁)
      have hlen : (eol :: number :: ts).length = 1 + 1 + ts.length := by
        simp only [List.length_cons]
        omega
      refine ⟨k + 1 + 1, p', fun n hn => ?_⟩
      rw [hlen] at hn
      rw [show n + (k + 1 + 1) = n + k + 1 + 1 by omega,
        encodeLoop_skip cmds tokens env scan _ _ _ _ hp (.inr (.inr (.inl heol))),
        encodeLoop_skip cmds tokens env scan _ _ _ _ hp₁ (.inr (.inr (.inr hnumber))),
        hrun n (by omega)]

end

end ScOpen
