import ScOpen.ListCounts

/-!
# Line breaks in a message

The body of a message may be laid out over several lines. At the end of each of them two tokens are
stored, the second of which has a text. Two programs are gone through abreast here: one without the
line breaks and one with them.
-/

namespace ScOpen

/-- The end of a line and the number of the next one, as they are stored. -/
structure LineBreak where
  file : Bytes
  file_ne : file ≠ []
  noNul : 0 ∉ file
  number : ℕ

def LineBreak.text (b : LineBreak) : Bytes := b.file ++ chr ':' :: decimal b.number

def LineBreak.numberToken (b : LineBreak) : Token := ⟨.lineNumber, b.text, fun h => by cases h⟩

def LineBreak.tokens (b : LineBreak) : List Token :=
  [mark .endOfLine endOfLine_hasText, b.numberToken]

/-- The second tokens are the first ones with line breaks anywhere. -/
inductive Broken : List Token → List Token → Prop
  | nil : Broken [] []
  | token (t : Token) {ts ts' : List Token} (h : Broken ts ts') : Broken (t :: ts) (t :: ts')
  | lineBreak (b : LineBreak) {ts ts' : List Token} (h : Broken ts ts') :
      Broken ts (b.tokens ++ ts')

/-- One of the written values is refused, whatever the variables are. -/
inductive Refuses (minus : Bool) (convert : Bytes → Converted) : List Token → Prop
  | one {t : Token} {ts : List Token} (hvar : t.type ≠ .variable_)
      (hminus : minus = true → t.type ≠ .minus) (herror : (convert t.text).error = true) :
      Refuses minus convert (t :: ts)
  | signed {m t : Token} {ts : List Token} (hminus : minus = true) (hm : m.type = .minus)
      (hvar : t.type ≠ .variable_) (herror : (convert (chr '-' :: cString t.text)).error = true) :
      Refuses minus convert (m :: t :: ts)
  | later {t : Token} {ts : List Token} (hminus : minus = true → t.type ≠ .minus)
      (h : Refuses minus convert ts) : Refuses minus convert (t :: ts)
  | laterSigned {m t : Token} {ts : List Token} (hminus : minus = true) (hm : m.type = .minus)
      (h : Refuses minus convert ts) : Refuses minus convert (m :: t :: ts)

def Converted.nothing : Converted := ⟨[], 0, false, false⟩

/-- The line breaks between these values add nothing to the item: there are none that the loop over
the values comes to, or none of their texts is taken for a value. A sign is directly in front of
its number. -/
inductive ValuesKept (minus : Bool) (convert : Bytes → Converted) :
    List Token → List Token → Prop
  | nil : ValuesKept minus convert [] []
  | one {t : Token} {ts ts' : List Token} (hminus : minus = true → t.type ≠ .minus)
      (h : ValuesKept minus convert ts ts') : ValuesKept minus convert (t :: ts) (t :: ts')
  | signed {m t : Token} {ts ts' : List Token} (hminus : minus = true) (hm : m.type = .minus)
      (h : ValuesKept minus convert ts ts') : ValuesKept minus convert (m :: t :: ts) (m :: t :: ts')
  | stop {t : Token} {ts ts' : List Token} (hvar : t.type ≠ .variable_)
      (hminus : minus = true → t.type ≠ .minus) (hstop : (convert t.text).stop = true) :
      ValuesKept minus convert (t :: ts) (t :: ts')
  | ignored (b : LineBreak) {ts ts' : List Token} (hend : convert [] = .nothing)
      (hnumber : convert b.text = .nothing) (h : ValuesKept minus convert ts ts') :
      ValuesKept minus convert ts (b.tokens ++ ts')

/-- What is left of a body, up to its period, inside of `d` lists: on a single line and with line
breaks. `Ok` says which line breaks there may be between the values of an item that is encoded;
behind an item that is refused nothing is encoded any more, only counted (`stopped`). There are no
loops in it. -/
inductive BodyLaid (scan : FloatScan) (Ok : SecsType → List Token → List Token → Prop) :
    Bool → ℕ → List Token → List Token → Prop
  | period {stopped : Bool} {t : Token} {ts ts' : List Token} (ht : t.type = .period) :
      BodyLaid scan Ok stopped 0 (t :: ts) (t :: ts')
  | lineBreak {stopped : Bool} {d : ℕ} {ts ts' : List Token} (b : LineBreak)
      (h : BodyLaid scan Ok stopped d ts ts') :
      BodyLaid scan Ok stopped d ts (b.tokens ++ ts')
  | item {stopped : Bool} {d : ℕ} (bs : List LineBreak) {w : Token} {type : SecsType}
      {vs vs' ts ts' : List Token} (refused : Bool) (hw : w.IsWord)
      (hbranch : branchOf scan w.text = .item type type.minus (type.convert scan))
      (hvs : ValueTokens type.minus vs) (hbroken : Broken vs vs')
      (hok : stopped = false → Ok type vs vs')
      (hrefused : refused = true → Refuses type.minus (type.convert scan) vs)
      (h : BodyLaid scan Ok (stopped || refused) d ts ts') :
      BodyLaid scan Ok stopped d
        (mark .lessThan lessThan_hasText :: w :: (vs ++
          mark .greaterThan greaterThan_hasText :: ts))
        (mark .lessThan lessThan_hasText :: (bs.flatMap LineBreak.tokens ++ w :: (vs' ++
          mark .greaterThan greaterThan_hasText :: ts')))
  | invalid {stopped : Bool} {d : ℕ} (bs : List LineBreak) {w : Token}
      {vs vs' ts ts' : List Token} (hw : w.IsWord)
      (hbranch : branchOf scan w.text = .invalid ∨ branchOf scan w.text = .other)
      (hvs : ∀ t ∈ vs, t.type.isValue = true) (hbroken : Broken vs vs')
      (h : BodyLaid scan Ok true d ts ts') :
      BodyLaid scan Ok stopped d
        (mark .lessThan lessThan_hasText :: w :: (vs ++
          mark .greaterThan greaterThan_hasText :: ts))
        (mark .lessThan lessThan_hasText :: (bs.flatMap LineBreak.tokens ++ w :: (vs' ++
          mark .greaterThan greaterThan_hasText :: ts')))
  | list {stopped : Bool} {d : ℕ} (bs : List LineBreak) {w : Token} {ts ts' : List Token}
      (hw : w.IsWord) (hbranch : branchOf scan w.text = .list)
      (h : BodyLaid scan Ok stopped (d + 1) ts ts') :
      BodyLaid scan Ok stopped d (mark .lessThan lessThan_hasText :: w :: ts)
        (mark .lessThan lessThan_hasText :: (bs.flatMap LineBreak.tokens ++ w :: ts'))
  | close {stopped : Bool} {d : ℕ} {ts ts' : List Token}
      (h : BodyLaid scan Ok stopped d ts ts') :
      BodyLaid scan Ok stopped (d + 1) (mark .greaterThan greaterThan_hasText :: ts)
        (mark .greaterThan greaterThan_hasText :: ts')

/-! ## Two programs abreast -/

def Program.remaining {σ : Type} (p : Program σ) : List Token := p.tokens.drop p.programIdx

structure Abreast {σ : Type} (R : σ → σ → Prop) (ts ts' : List Token) (p p' : Program σ) :
    Prop where
  first : p.remaining = ts
  second : p'.remaining = ts'
  related : R p.env p'.env

def EvaluatesAlike {σ : Type} (cmds : EncodeCommands σ) (R : σ → σ → Prop) : Prop :=
  ∀ text {e e' : σ}, R e e' → (cmds.evaluateToken text e).1 = (cmds.evaluateToken text e').1 ∧
    R (cmds.evaluateToken text e).2 (cmds.evaluateToken text e').2

section

variable {σ : Type} {cmds : EncodeCommands σ} {R : σ → σ → Prop} {t : Token}
  {ts ts' : List Token} {p p' : Program σ}

/-- A token that is read: its text is its own unless it is a variable. -/
theorem getProgramToken_remaining (evaluateToken : Bytes → σ → Bytes × σ)
    (h : p.remaining = t :: ts) :
    getProgramToken evaluateToken p =
      (t.type, if t.type = .variable_ then (evaluateToken t.text p.env).1 else t.text,
        ⟨p.tokens, p.programIdx + 1, p.programIdx,
          if t.type = .variable_ then (evaluateToken t.text p.env).2 else p.env⟩) := by
  have hget : p.tokens[p.programIdx]? = some t := by
    have hhead := congrArg (fun l => l[0]?) h
    simpa [Program.remaining] using hhead
  by_cases ht : t.type = .variable_
  · simp only [getProgramToken, hget, if_pos ht]
  · simp only [getProgramToken, hget, if_neg ht]

/-- The same token is read in both programs. -/
theorem Abreast.read (heval : EvaluatesAlike cmds R) (h : Abreast R (t :: ts) (t :: ts') p p') :
    ∃ text q q', getProgramToken cmds.evaluateToken p = (t.type, text, q) ∧
      getProgramToken cmds.evaluateToken p' = (t.type, text, q') ∧
      (t.type ≠ .variable_ → text = t.text) ∧ Abreast R ts ts' q q' ∧
      Abreast R (t :: ts) (t :: ts') (putProgramToken q) (putProgramToken q') ∧
      q.tokens = p.tokens ∧ q'.tokens = p'.tokens := by
  have hfirst := getProgramToken_remaining cmds.evaluateToken h.first
  have hsecond := getProgramToken_remaining cmds.evaluateToken h.second
  have hnext : p.tokens.drop (p.programIdx + 1) = ts := drop_succ_of_cons h.first
  have hnext' : p'.tokens.drop (p'.programIdx + 1) = ts' := drop_succ_of_cons h.second
  by_cases ht : t.type = .variable_
  · obtain ⟨hvalue, hrelated⟩ := heval t.text h.related
    rw [if_pos ht, if_pos ht] at hfirst hsecond
    rw [← hvalue] at hsecond
    exact ⟨_, _, _, hfirst, hsecond, fun hne => absurd ht hne, ⟨hnext, hnext', hrelated⟩,
      ⟨h.first, h.second, hrelated⟩, rfl, rfl⟩
  · rw [if_neg ht, if_neg ht] at hfirst hsecond
    exact ⟨_, _, _, hfirst, hsecond, fun _ => rfl, ⟨hnext, hnext', h.related⟩,
      ⟨h.first, h.second, h.related⟩, rfl, rfl⟩

end

/-! ## The count of a list -/

section

variable {σ : Type} {cmds : EncodeCommands σ} {scan : FloatScan}
  {Ok : SecsType → List Token → List Token → Prop} {R : σ → σ → Prop}
  {us us' vs vs' : List Token} {p p' : Program σ}

def CountedAlike (cmds : EncodeCommands σ) (R : σ → σ → Prop) (nest cnt : ℕ) (p p' : Program σ)
    (r : ℕ × Program σ) : Prop :=
  ∃ m q', (∀ k, countLoop cmds (k + m) nest cnt p' = some (r.1, q')) ∧ R r.2.env q'.env ∧
    r.2.tokens = p.tokens ∧ q'.tokens = p'.tokens

theorem CountedAlike.before {q q' : Program σ} {r : ℕ × Program σ} {nest cnt nest₁ cnt₁ m : ℕ}
    (h : CountedAlike cmds R nest₁ cnt₁ q q' r) (htokens : q.tokens = p.tokens)
    (htokens' : q'.tokens = p'.tokens)
    (hall : ∀ k, countLoop cmds (k + m) nest cnt p' = countLoop cmds k nest₁ cnt₁ q') :
    CountedAlike cmds R nest cnt p p' r := by
  obtain ⟨m', q₁', hrun, hrelated, hr, hq₁'⟩ := h
  refine ⟨m' + m, q₁', fun k => ?_, hrelated, hr.trans htokens, hq₁'.trans htokens'⟩
  rw [← Nat.add_assoc, hall, hrun]

end

end ScOpen
