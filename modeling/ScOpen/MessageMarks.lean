import ScOpen.MakeLog
import ScOpen.SmlHeaders

/-!
# The marks of a message

The way of the encoder through a message as a list: the brackets that it passes, the lists with
the types of the tokens that the count reads ahead, and the items with the texts up to their `>`.
What is written for a message that is not refused is what its marks come to, one after another.
-/

namespace ScOpen

def SecsType.minus : SecsType → Bool
  | .elements .signed1 | .elements .signed2 | .elements .signed4 | .elements .signed8
  | .elements .float4 | .elements .float8 => true
  | _ => false

/-- What the texts of an item are converted with. -/
def SecsType.convert (scan : FloatScan) : SecsType → Bytes → Converted
  | .list => fun _ => ⟨[], 0, false, false⟩
  | .ascii => convertAscii
  | .elements .boolean => convertBoolean
  | .elements .binary => convertBinary
  | .elements .unsigned1 => convertUnsigned 1
  | .elements .unsigned2 => convertUnsigned 2
  | .elements .unsigned4 => convertUnsigned 4
  | .elements .unsigned8 => convertUnsigned 8
  | .elements .signed1 => convertSigned 1
  | .elements .signed2 => convertSigned 2
  | .elements .signed4 => convertSigned 4
  | .elements .signed8 => convertSigned 8
  | .elements .float4 => convertFloat4 scan
  | .elements .float8 => convertFloat8 scan

theorem branchOf_item {scan : FloatScan} {text : Bytes} {t : SecsType} {minus : Bool}
    {convert : Bytes → Converted} (h : branchOf scan text = .item t minus convert) :
    t ≠ .list ∧ minus = t.minus ∧ convert = t.convert scan := by
  revert h
  dsimp only [branchOf]
  repeat' refine iteInduction (motive := fun b => b = Branch.item t minus convert →
    t ≠ .list ∧ minus = t.minus ∧ convert = t.convert scan) (fun _ => ?_) (fun _ => ?_)
  all_goals
    intro h
    first
      | exact Branch.noConfusion h
      | injection h with ht hminus hconvert
        subst ht hminus hconvert
        exact ⟨SecsType.noConfusion, rfl, rfl⟩

inductive Mark where
  | opened
  | closed
  | list (ahead : List TokenType)
  | item (t : SecsType) (ht : t ≠ .list) (texts : List Bytes)

def bracketOf : TokenType → List Mark
  | .lessThan => [.opened]
  | .greaterThan => [.closed]
  | _ => []

/-- How many `<` stand outside of all brackets that are opened on the way. -/
def outerOpens : ℕ → List TokenType → ℕ
  | _, [] => 0
  | nest, .lessThan :: ts => (if nest = 0 then 1 else 0) + outerOpens (nest + 1) ts
  | nest, .greaterThan :: ts => outerOpens (nest - 1) ts
  | nest, _ :: ts => outerOpens nest ts

section

variable (scan : FloatScan)

def itemData (t : SecsType) (texts : List Bytes) : Bytes :=
  texts.flatMap fun text => (t.convert scan text).data

def countedBytes (t : SecsType) (texts : List Bytes) : ℕ :=
  (texts.map fun text => (t.convert scan text).numBytes).sum

def Mark.bytes : Mark → Bytes
  | .opened | .closed => []
  | .list ahead => itemHeader .list (outerOpens 0 ahead)
  | .item t _ texts => itemHeader t (countedBytes scan t texts % 2 ^ 32) ++ itemData scan t texts

end

section

variable {σ : Type} (cmds : EncodeCommands σ) (scan : FloatScan)

def readAhead : ℕ → ℕ → Program σ → List TokenType
  | 0, _, _ => []
  | n + 1, nest, p =>
      let (type, _, p) := getProgramToken cmds.evaluateToken p
      match type with
      | .nullToken => []
      | .lessThan => .lessThan :: readAhead n (nest + 1) p
      | .greaterThan => if nest = 0 then [] else .greaterThan :: readAhead n (nest - 1) p
      | .for_ =>
          let (r, p) := cmds.cmdFor p
          if r ≠ 0 then [] else .for_ :: readAhead n nest p
      | .next =>
          let (r, p) := cmds.cmdNext p
          if r ≠ 0 then [] else .next :: readAhead n nest p
      | type => type :: readAhead n nest p

def readTexts (minus : Bool) : ℕ → Program σ → Option (List Bytes × List Mark × Program σ)
  | 0, _ => none
  | n + 1, p =>
      let (type, text, p) := getProgramToken cmds.evaluateToken p
      if type = .greaterThan then some ([], [], putProgramToken p)
      else
        let (type, text, p) :=
          if minus ∧ type = .minus then
            let (type, text, p) := getProgramToken cmds.evaluateToken p
            (type, chr '-' :: cString text, p)
          else (type, text, p)
        do
          let (texts, brackets, p) ← readTexts minus n p
          return (text :: texts, bracketOf type ++ brackets, p)

def readMarks : ℕ → Program σ → List Mark
  | 0, _ => []
  | n + 1, p =>
      let (type, text, p) := getProgramToken cmds.evaluateToken p
      match type with
      | .nullToken | .period => []
      | .lineNumber | .endOfLine => readMarks n p
      | .greaterThan => .closed :: readMarks n p
      | .lessThan => .opened :: readMarks n p
      | _ =>
          match hbranch : branchOf scan text with
          | .list =>
              match getNumListElements cmds n p with
              | none => []
              | some (_, p') => .list (readAhead cmds n 0 p) :: readMarks n p'
          | .item t minus _ =>
              match readTexts cmds minus n p with
              | none => []
              | some (texts, brackets, p') =>
                  .item t (branchOf_item hbranch).1 texts :: (brackets ++ readMarks n p')
          | .invalid => []
          | .other =>
              if type = .for_ then
                let (r, p) := cmds.cmdFor p
                if r ≠ 0 then [] else readMarks n p
              else if type = .next then
                let (r, p) := cmds.cmdNext p
                if r ≠ 0 then [] else readMarks n p
              else []

theorem countLoop_ahead {n nest cnt c : ℕ} {p p' : Program σ}
    (h : countLoop cmds n nest cnt p = some (c, p')) :
    c = cnt + outerOpens nest (readAhead cmds n nest p) := by
  induction n generalizing nest cnt p with
  | zero => cases h
  | succ n ih =>
      obtain ⟨type, text, q, hget⟩ :
          ∃ type text q, getProgramToken cmds.evaluateToken p = (type, text, q) := ⟨_, _, _, rfl⟩
      rw [countLoop] at h
      simp only [hget] at h
      rw [readAhead]
      simp only [hget]
      split at h
      · cases h
        rfl
      · rw [ih h, outerOpens]
        split <;> omega
      · split at h
        · rename_i hnest
          cases h
          rw [if_pos hnest]
          rfl
        · rename_i hnest
          rw [ih h, if_neg hnest, outerOpens]
      · split at h
        · rename_i hr
          cases h
          rw [if_pos hr]
          rfl
        · rename_i hr
          rw [ih h, if_neg hr]
          rfl
      · split at h
        · rename_i hr
          cases h
          rw [if_pos hr]
          rfl
        · rename_i hr
          rw [ih h, if_neg hr]
          rfl
      · rename_i h₁ h₂ h₃ h₄ h₅
        rw [ih h]
        simp only [outerOpens]

end

end ScOpen
