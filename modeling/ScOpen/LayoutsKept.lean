import ScOpen.LineBreaks
import ScOpen.SecsEncodeRight

/-!
# Layouts that are kept

Outside of the items with data each line break is passed over, by the count of a list too. So the
message is the same when none of them is taken for a value.
-/

namespace ScOpen

/-! ## The conversions -/

/-- The data of an item with those of one more text. -/
def ItemData.add (d : ItemData) (c : Converted) : ItemData where
  data := d.data ++ c.data
  numBytes := (d.numBytes + c.numBytes) % 2 ^ 32
  iret := if c.error then 1 else d.iret

section

variable {σ : Type} {cmds : EncodeCommands σ} {R : σ → σ → Prop} {minus : Bool}
  {convert : Bytes → Converted} {p p' q q' : Program σ} {type type' : TokenType}
  {text text' : Bytes} {vs vs' us us' : List Token} {d r : ItemData} {n : ℕ}

theorem itemLoop_text (convert : Bytes → Converted)
    (hget : getProgramToken cmds.evaluateToken p = (type, text, q))
    (hgt : type ≠ .greaterThan) (hminus : minus = true → type ≠ .minus) (n : ℕ) (d : ItemData) :
    itemLoop cmds minus convert (n + 1) p d =
      if (convert text).stop then some (d.add (convert text), q)
      else itemLoop cmds minus convert n q (d.add (convert text)) := by
  have hnot : ¬ (minus = true ∧ type = .minus) := fun h => hminus h.1 h.2
  simp only [itemLoop, hget, if_neg hgt, if_neg hnot, ItemData.add]

theorem itemLoop_signed (convert : Bytes → Converted)
    (hget : getProgramToken cmds.evaluateToken p = (type, text, q))
    (hminus : minus = true) (htype : type = .minus)
    (hget' : getProgramToken cmds.evaluateToken q = (type', text', q')) (n : ℕ) (d : ItemData) :
    itemLoop cmds minus convert (n + 1) p d =
      if (convert (chr '-' :: cString text')).stop then
        some (d.add (convert (chr '-' :: cString text')), q')
      else itemLoop cmds minus convert n q' (d.add (convert (chr '-' :: cString text'))) := by
  subst hminus htype
  have hgt : TokenType.minus ≠ .greaterThan := by decide
  simp only [itemLoop, hget, if_neg hgt, and_self, if_true, hget', ItemData.add]

theorem itemLoop_end (hget : getProgramToken cmds.evaluateToken p = (.greaterThan, text, q))
    (n : ℕ) (d : ItemData) :
    itemLoop cmds minus convert (n + 1) p d = some (d, putProgramToken q) := by
  simp only [itemLoop, hget, if_true]

end

/-! ## The main loop -/

def Kept (scan : FloatScan) (type : SecsType) (vs vs' : List Token) : Prop :=
  ValuesKept type.minus (type.convert scan) vs vs'

section

variable {σ : Type} {cmds : EncodeCommands σ} {scan : FloatScan} {R : σ → σ → Prop}
  {p p' q q' : Program σ} {type : TokenType} {text : Bytes} {us us' : List Token}
  {buffer buffer' : Bytes} {st : EncodeState σ} {n : ℕ}

theorem encodeLoop_error (n : ℕ) {iret : ℕ} (h : iret ≠ 0) (p : Program σ) (buffer : Bytes) :
    encodeLoop cmds scan (n + 1) ⟨p, iret, buffer⟩ = some ⟨p, iret, buffer⟩ := by
  rw [encodeLoop, if_pos h]

theorem encodeLoop_type {w : Token} (hw : w.IsWord)
    (hget : getProgramToken cmds.evaluateToken p = (w.type, text, q)) (n : ℕ) (buffer : Bytes) :
    encodeLoop cmds scan (n + 1) ⟨p, 0, buffer⟩ =
      match branchOf scan text with
      | .list =>
          getNumListElements cmds n q >>= fun r =>
            encodeLoop cmds scan n ⟨r.2, 0, buffer ++ itemHeader .list r.1⟩
      | .item t minus convert =>
          itemLoop cmds minus convert n q ⟨[], 0, 0⟩ >>= fun r =>
            encodeLoop cmds scan n
              ⟨r.2, r.1.iret, buffer ++ itemHeader t r.1.numBytes ++ r.1.data⟩
      | .invalid => some ⟨q, 1, buffer⟩
      | .other => some ⟨q, 1, buffer⟩ := by
  simp only [encodeLoop, hget, ne_eq, not_true_eq_false, if_false]
  rcases hw with h | h | h | h
  · simp only [h]
    rfl
  · simp only [h]
    rfl
  · simp only [h]
    rfl
  · simp only [h]
    rfl

def EncodedAlike (cmds : EncodeCommands σ) (scan : FloatScan) (p' : Program σ) (buffer : Bytes)
    (st : EncodeState σ) : Prop :=
  ∃ m q', ∀ k, encodeLoop cmds scan (k + m) ⟨p', 0, buffer⟩ = some ⟨q', st.iret, st.buffer⟩

theorem EncodedAlike.before {a b : ℕ} (h : EncodedAlike cmds scan q' buffer' st)
    (hall : ∀ k, encodeLoop cmds scan (k + a) ⟨p', 0, buffer⟩ =
      encodeLoop cmds scan (k + b) ⟨q', 0, buffer'⟩) : EncodedAlike cmds scan p' buffer st := by
  obtain ⟨m, q₁', hrun⟩ := h
  refine ⟨m + a, q₁', fun k => ?_⟩
  rw [← Nat.add_assoc, hall, Nat.add_right_comm, hrun]

end

/-! ## Messages -/

section

variable {σ : Type}

def Gives (cmds : EncodeCommands σ) (scan : FloatScan) (fl : FloatText) (head : MessageHead)
    (p : Program σ) (status : ℕ) (bytes : Bytes) : Prop :=
  ∃ k r, (∀ n, secsEncode cmds scan fl (n + k) head [] p = some (.ok r)) ∧
    r.iret = status ∧ r.buffer = bytes

variable {cmds : EncodeCommands σ} {scan : FloatScan} {fl : FloatText} {head : MessageHead}
  {Ok : SecsType → List Token → List Token → Prop} {R : σ → σ → Prop} {p p' : Program σ}

def Token.NoText (t : Token) : Prop := t.text = [] ∧ t.type ≠ .variable_

theorem noText_mark (type : TokenType) (h : type.hasText = false) : (mark type h).NoText := by
  refine ⟨rfl, ?_⟩
  rintro rfl
  cases h

theorem noText_of_type {t : Token} (h : t.type.hasText = false) : t.NoText := by
  refine ⟨t.text_of_type h, fun htype => ?_⟩
  rw [htype] at h
  cases h

theorem BodyLaid.first {stopped : Bool} {d : ℕ} {ts ts' : List Token}
    (h : BodyLaid scan Ok stopped d ts ts') :
    (∃ t us, ts = t :: us ∧ t.NoText) ∧ ∃ t us, ts' = t :: us ∧ t.NoText := by
  induction h with
  | period ht =>
      have hnone : Token.NoText _ := noText_of_type (by rw [ht]; rfl)
      exact ⟨⟨_, _, rfl, hnone⟩, _, _, rfl, hnone⟩
  | lineBreak b _ ih => exact ⟨ih.1, _, _, rfl, noText_mark _ _⟩
  | item => exact ⟨⟨_, _, rfl, noText_mark _ _⟩, _, _, rfl, noText_mark _ _⟩
  | invalid => exact ⟨⟨_, _, rfl, noText_mark _ _⟩, _, _, rfl, noText_mark _ _⟩
  | list => exact ⟨⟨_, _, rfl, noText_mark _ _⟩, _, _, rfl, noText_mark _ _⟩
  | close => exact ⟨⟨_, _, rfl, noText_mark _ _⟩, _, _, rfl, noText_mark _ _⟩

end

end ScOpen
