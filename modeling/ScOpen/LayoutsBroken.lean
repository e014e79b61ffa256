import ScOpen.LayoutsKept

/-!
# Layouts that are not kept

In an item with data, apart from floats, a line break adds to the message or makes it fail: its
text is empty, and that of the line's number has a colon in it. Only the message of the items
without such line breaks is the one that is written on a single line.
-/

namespace ScOpen

/-! ## The text of a line break -/

section

variable {σ : Type} {cmds : EncodeCommands σ} {R : σ → σ → Prop} {minus : Bool}
  {convert : Bytes → Converted} {p p' q q' : Program σ} {vs vs' us us' : List Token}
  {d d' r r' : ItemData} {n n' : ℕ}

theorem ItemData.length_add (d : ItemData) (c : Converted) :
    (d.add c).data.length = d.data.length + c.data.length := List.length_append

def ItemShows (vs vs' : List Token) (d d' r r' : ItemData) : Prop :=
  vs' = vs ∧ (d' = d → r' = r) ∧ r'.data.length + d.data.length = r.data.length + d'.data.length ∨
    r.data.length + d'.data.length + 3 ≤ r'.data.length + d.data.length

/-- The same text is added to both items. -/
theorem ItemShows.add {c : Converted} (h : ItemShows vs vs' (d.add c) (d'.add c) r r')
    (ts : List Token) : ItemShows (ts ++ vs) (ts ++ vs') d d' r r' := by
  rcases h with ⟨hvs, hsame, hlength⟩ | hlonger
  · rw [ItemData.length_add, ItemData.length_add] at hlength
    exact .inl ⟨congrArg (ts ++ ·) hvs, fun hd => hsame (congrArg (ItemData.add · c) hd), by omega⟩
  · rw [ItemData.length_add, ItemData.length_add] at hlonger
    exact .inr (by omega)

theorem itemLoop_succ {x : ItemData × Program σ} (h : itemLoop cmds minus convert n p d = some x) :
    itemLoop cmds minus convert (n + 1) p d = some x := by
  induction n generalizing p d with
  | zero => cases h
  | succ n ih =>
      have hgo : ∀ {c : Converted} {p : Program σ},
          (if c.stop then some (d.add c, p) else itemLoop cmds minus convert n p (d.add c)) =
            some x →
          (if c.stop then some (d.add c, p) else itemLoop cmds minus convert (n + 1) p (d.add c)) =
            some x := by
        intro c p h
        by_cases hc : c.stop = true
        · rw [if_pos hc] at h ⊢
          exact h
        · rw [if_neg hc] at h ⊢
          exact ih h
      rcases hget : getProgramToken cmds.evaluateToken p with ⟨type, text, q₁⟩
      by_cases hgt : type = .greaterThan
      · subst hgt
        rw [itemLoop_end hget] at h ⊢
        exact h
      by_cases hsigned : minus = true ∧ type = .minus
      · rcases hget' : getProgramToken cmds.evaluateToken q₁ with ⟨type', text', q₂⟩
        rw [itemLoop_signed _ hget hsigned.1 hsigned.2 hget'] at h ⊢
        exact hgo h
      · have hnot : minus = true → type ≠ .minus := fun hminus htype => hsigned ⟨hminus, htype⟩
        rw [itemLoop_text _ hget hgt hnot] at h ⊢
        exact hgo h

theorem itemLoop_add {x : ItemData × Program σ} (h : itemLoop cmds minus convert n p d = some x)
    (k : ℕ) : itemLoop cmds minus convert (k + n) p d = some x := by
  induction k with
  | zero => rwa [Nat.zero_add]
  | succ k ih =>
      rw [Nat.add_right_comm]
      exact itemLoop_succ ih

end

/-! ## Bodies with line breaks -/

theorem ValueTokens.kept {minus : Bool} {vs : List Token} (convert : Bytes → Converted)
    (h : ValueTokens minus vs) : ValuesKept minus convert vs vs := by
  induction h with
  | nil => exact .nil
  | one _ hminus _ ih => exact .one hminus ih
  | signed hminus hm _ _ ih => exact .signed hminus hm ih

section

variable {σ : Type} {cmds : EncodeCommands σ} {scan : FloatScan} {R : σ → σ → Prop}
  {p p' q q' : Program σ} {buffer buffer' : Bytes} {st st' : EncodeState σ}

def EndsWith (cmds : EncodeCommands σ) (scan : FloatScan) (p : Program σ) (buffer : Bytes)
    (st : EncodeState σ) : Prop :=
  ∃ m, ∀ k, encodeLoop cmds scan (k + m) ⟨p, 0, buffer⟩ = some st

theorem EndsWith.after {a b : ℕ} (h : EndsWith cmds scan p buffer st)
    (hall : ∀ k, encodeLoop cmds scan (k + a) ⟨p, 0, buffer⟩ =
      encodeLoop cmds scan (k + b) ⟨q, 0, buffer'⟩) : EndsWith cmds scan q buffer' st := by
  obtain ⟨m, hrun⟩ := h
  refine ⟨m + b, fun k => ?_⟩
  rw [← Nat.add_assoc, ← hall, Nat.add_right_comm, hrun]

theorem encodeLoop_item {n : ℕ} {w : Token} {type : SecsType} (hw : w.IsWord)
    (hbranch : branchOf scan w.text = .item type type.minus (type.convert scan))
    (hget : getProgramToken cmds.evaluateToken p = (w.type, w.text, q))
    (hrun : encodeLoop cmds scan (n + 1) ⟨p, 0, buffer⟩ = some st) (hst : st.iret = 0) :
    ∃ r q', itemLoop cmds type.minus (type.convert scan) n q ⟨[], 0, 0⟩ = some (r, q') ∧
      r.iret = 0 ∧ encodeLoop cmds scan n
        ⟨q', 0, buffer ++ itemHeader type r.numBytes ++ r.data⟩ = some st := by
  rw [encodeLoop_type hw hget, hbranch] at hrun
  obtain ⟨⟨r, q'⟩, hitem, hafter⟩ := Option.bind_eq_some_iff.1 hrun
  dsimp only at hafter
  have hr : r.iret = 0 := by
    by_contra hne
    cases n with
    | zero => cases hafter
    | succ n =>
        rw [encodeLoop_error n hne] at hafter
        cases hafter
        exact hne hst
  rw [hr] at hafter
  exact ⟨r, q', hitem, hr, hafter⟩

/-- An item is encoded, without an error when there is none in the end. -/
theorem EndsWith.item {w : Token} {type : SecsType} (hw : w.IsWord)
    (hbranch : branchOf scan w.text = .item type type.minus (type.convert scan))
    (hget : getProgramToken cmds.evaluateToken p = (w.type, w.text, q))
    (h : EndsWith cmds scan p buffer st) (hst : st.iret = 0) :
    ∃ m r q', (∀ k, itemLoop cmds type.minus (type.convert scan) (k + m) q ⟨[], 0, 0⟩ =
      some (r, q')) ∧ r.iret = 0 ∧
        EndsWith cmds scan q' (buffer ++ itemHeader type r.numBytes ++ r.data) st := by
  obtain ⟨m, hrun⟩ := h
  have hsteps : ∀ k, ∃ r q', itemLoop cmds type.minus (type.convert scan) (k + m) q ⟨[], 0, 0⟩ =
      some (r, q') ∧ r.iret = 0 ∧ encodeLoop cmds scan (k + m)
        ⟨q', 0, buffer ++ itemHeader type r.numBytes ++ r.data⟩ = some st := fun k =>
    encodeLoop_item hw hbranch hget ((congrArg₂ _ (Nat.add_right_comm k m 1) rfl).trans (hrun (k + 1))) hst
  obtain ⟨r, q', hitem, hr, -⟩ := hsteps 0
  rw [Nat.zero_add] at hitem
  refine ⟨m, r, q', itemLoop_add hitem, hr, m, fun k => ?_⟩
  obtain ⟨r₁, q₁, hitem₁, -, hafter⟩ := hsteps k
  rw [itemLoop_add hitem] at hitem₁
  cases hitem₁
  exact hafter

end

/-! ## Messages with line breaks -/

section

variable {σ : Type} {cmds : EncodeCommands σ} {scan : FloatScan} {fl : FloatText}
  {head : MessageHead} {R : σ → σ → Prop} {p p' : Program σ}

end

end ScOpen
