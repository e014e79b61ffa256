import Mathlib.Data.List.Forall2
import ScOpen.StoredReads

/-!
# The program in its array

The commands see a program as a list of tokens, with indices that are counted in tokens. In the code
the indices are counted in bytes of the array. Whoever uses the array only through its functions
cannot tell the one from the other.
-/

namespace ScOpen

theorem code_eq_variable_iff (type : TokenType) : type.code = TT_VARIABLE ↔ type = .variable_ := by
  cases type <;> decide

/-- A token and what is stored of it. -/
structure StoredAs (t : Token) (u : StoredToken) : Prop where
  type : u.type = t.type.code
  text : u.text = t.text

section

variable {σ : Type} (evaluateToken : Bytes → σ → Bytes × σ)

def StoredProgram.getProgramToken (p : StoredProgram) (env : σ) :
    (UInt8 × Bytes) × StoredProgram × σ :=
  let ((type, text), p) := p.getProgramTokenNoEval
  if type = TT_VARIABLE then
    let (text, env) := evaluateToken text env
    ((type, text), p, env)
  else ((type, text), p, env)

/-- How commands use a program; `i` stands for the index that was asked for `i` requests ago. -/
inductive ProgramOp (σ : Type) where
  | get
  | getNoEval
  | put
  | getIdx
  | setIdx (i : ℕ)
  | act (f : σ → σ)

structure TokenReader (σ : Type) where
  program : Program σ
  kept : List ℕ

structure ArrayReader (σ : Type) where
  program : StoredProgram
  env : σ
  kept : List ℕ

def TokenReader.next (r : TokenReader σ) : ProgramOp σ → TokenReader σ × Option (UInt8 × Bytes)
  | .get =>
      let (type, text, p) := ScOpen.getProgramToken evaluateToken r.program
      ({ r with program := p }, some (type.code, text))
  | .getNoEval =>
      let (type, text, p) := ScOpen.getProgramToken (fun text env => (text, env)) r.program
      ({ r with program := p }, some (type.code, text))
  | .put => ({ r with program := putProgramToken r.program }, none)
  | .getIdx => ({ r with kept := r.program.programIdx :: r.kept }, none)
  | .setIdx i =>
      (r.kept[i]?.elim r fun idx => { r with program := setProgramTokenIdx idx r.program }, none)
  | .act f => ({ r with program := { r.program with env := f r.program.env } }, none)

def ArrayReader.next (r : ArrayReader σ) : ProgramOp σ → ArrayReader σ × Option (UInt8 × Bytes)
  | .get =>
      let (token, p, env) := r.program.getProgramToken evaluateToken r.env
      ({ r with program := p, env := env }, some token)
  | .getNoEval =>
      let (token, p) := r.program.getProgramTokenNoEval
      ({ r with program := p }, some token)
  | .put => ({ r with program := r.program.putProgramToken }, none)
  | .getIdx => ({ r with kept := r.program.getProgramTokenIdx :: r.kept }, none)
  | .setIdx i =>
      (r.kept[i]?.elim r fun idx => { r with program := r.program.setProgramTokenIdx idx }, none)
  | .act f => ({ r with env := f r.env }, none)

/-- The array holds the tokens, and each index is where the token with that number starts. -/
structure SameProgram (xs : List StoredToken) (r : TokenReader σ) (a : ArrayReader σ) : Prop where
  tokens : List.Forall₂ StoredAs r.program.tokens xs
  at_token : a.program.At xs r.program.programIdx
  saved : a.program.savedProgramIdx = tokenFormat.offset xs r.program.savedProgramIdx
  env : a.env = r.program.env
  kept : a.kept = r.kept.map (tokenFormat.offset xs)

variable {xs : List StoredToken} {r : TokenReader σ} {a : ArrayReader σ}

/-- What the next read gives in the array and among the tokens. -/
theorem tokenAt_eq {tokens : List Token} (h : List.Forall₂ StoredAs tokens xs) (k : ℕ) :
    tokenAt xs k = (tokens[k]?.map fun t => (t.type.code, t.text)).getD (TT_NULL_TOKEN, []) := by
  induction h generalizing k with
  | nil => rfl
  | cons hstored _ ih =>
      cases k with
      | zero => exact Prod.ext hstored.type hstored.text
      | succ k => exact ih k

/-- Both read the same token, and stand in front of the same token afterwards. -/
theorem SameProgram.read (h : SameProgram xs r a) {type : TokenType} {text : Bytes}
    {p : Program σ} {token : UInt8 × Bytes} {p' : StoredProgram} {env : σ}
    (hr : ScOpen.getProgramToken evaluateToken r.program = (type, text, p))
    (ha : a.program.getProgramToken evaluateToken a.env = (token, p', env)) :
    token = (type.code, text) ∧ SameProgram xs ⟨p, r.kept⟩ ⟨p', env, a.kept⟩ := by
  have htoken := tokenAt_eq h.tokens r.program.programIdx
  rw [StoredProgram.getProgramToken, h.at_token.get, htoken, h.env] at ha
  rw [ScOpen.getProgramToken] at hr
  cases hget : r.program.tokens[r.program.programIdx]? with
  | none =>
      have hend : xs.length ≤ r.program.programIdx := by
        rw [← h.tokens.length_eq]
        exact List.getElem?_eq_none_iff.1 hget
      rw [hget] at hr ha
      cases hr
      cases ha
      refine ⟨rfl, h.tokens, ⟨h.at_token.program, ?_⟩, h.at_token.idx, rfl, h.kept⟩
      exact (tokenFormat.offset_end (hend.trans (Nat.le_succ _))).trans
        (tokenFormat.offset_end hend).symm
  | some t =>
      rw [hget] at hr ha
      simp only [Option.map_some, Option.getD_some, code_eq_variable_iff] at ha
      dsimp only at hr
      by_cases hvariable : t.type = .variable_
      · rw [if_pos hvariable] at hr ha
        cases hr
        cases ha
        exact ⟨rfl, h.tokens, ⟨h.at_token.program, rfl⟩, h.at_token.idx, rfl, h.kept⟩
      · rw [if_neg hvariable] at hr ha
        cases hr
        cases ha
        exact ⟨rfl, h.tokens, ⟨h.at_token.program, rfl⟩, h.at_token.idx, rfl, h.kept⟩

/-- Without evaluation a token is read as with one that leaves everything as it is. -/
theorem StoredProgram.getProgramToken_noEval (p : StoredProgram) (env : σ) :
    p.getProgramToken (fun text env => (text, env)) env =
      (p.getProgramTokenNoEval.1, p.getProgramTokenNoEval.2, env) := by
  rw [StoredProgram.getProgramToken]
  exact ite_self _

theorem SameProgram.next (h : SameProgram xs r a) (op : ProgramOp σ) :
    (a.next evaluateToken op).2 = (r.next evaluateToken op).2 ∧
      SameProgram xs (r.next evaluateToken op).1 (a.next evaluateToken op).1 := by
  cases op with
  | get =>
      obtain ⟨htoken, hsame⟩ := h.read evaluateToken rfl rfl
      exact ⟨congrArg some htoken, hsame⟩
  | getNoEval =>
      obtain ⟨htoken, hsame⟩ := h.read (fun text env => (text, env)) rfl
        (StoredProgram.getProgramToken_noEval _ _)
      exact ⟨congrArg some htoken, hsame⟩
  | put => exact ⟨rfl, h.tokens, ⟨h.at_token.program, h.saved⟩, h.saved, h.env, h.kept⟩
  | getIdx =>
      refine ⟨rfl, h.tokens, h.at_token, h.saved, h.env, ?_⟩
      exact congrArg₂ List.cons h.at_token.idx h.kept
  | setIdx i =>
      refine ⟨rfl, ?_⟩
      have hkept : a.kept[i]? = (r.kept[i]?).map (tokenFormat.offset xs) := by
        rw [h.kept, List.getElem?_map]
      simp only [TokenReader.next, ArrayReader.next, hkept]
      cases r.kept[i]? with
      | none => exact h
      | some idx => exact ⟨h.tokens, ⟨h.at_token.program, rfl⟩, h.saved, h.env, h.kept⟩
  | act f => exact ⟨rfl, h.tokens, h.at_token, h.saved, congrArg f h.env, h.kept⟩

/-- In every run of reads, put backs, requests for indices and jumps to them, with anything done to
the variables in between, the array gives the tokens that the list of tokens gives. -/
theorem array_reads_as_tokens {tokens : List Token} (h : List.Forall₂ StoredAs tokens xs) (env : σ)
    (ops : List (ProgramOp σ)) :
    Runs.outputs (ArrayReader.next evaluateToken) ⟨⟨tokenFormat.array xs, 0, 0⟩, env, []⟩ ops =
      Runs.outputs (TokenReader.next evaluateToken) ⟨⟨tokens, 0, 0, env⟩, []⟩ ops := by
  have hstart : SameProgram xs ⟨⟨tokens, 0, 0, env⟩, []⟩ ⟨⟨tokenFormat.array xs, 0, 0⟩, env, []⟩ :=
    ⟨h, ⟨rfl, rfl⟩, rfl, rfl, rfl⟩
  exact Runs.outputs_eq (fun a r op (h : SameProgram xs r a) => h.next evaluateToken op) hstart ops

end

/-- `let a = $x`. -/
def letTokens : List Token :=
  [mark .let_ let_hasText, word (cstr "a"), mark .assign assign_hasText,
    ⟨.variable_, cstr "$x", fun h => by cases h⟩]

/-- The value is read, the variable is changed, and the value is read again. -/
theorem array_reads_as_tokens_twice : ∃ xs, List.Forall₂ StoredAs letTokens xs ∧
    Runs.outputs (ArrayReader.next fun _ env => (env, env))
        ⟨⟨tokenFormat.array xs, 0, 0⟩, cstr "7", []⟩
        [.getNoEval, .get, .get, .getIdx, .get, .act fun _ => cstr "8", .setIdx 0, .get] =
      [some (TokenType.let_.code, []), some (TT_IDENTIFIER, cstr "a"),
        some (TokenType.assign.code, []), none, some (TT_VARIABLE, cstr "7"), none, none,
        some (TT_VARIABLE, cstr "8")] := by
  have hstored : List.Forall₂ StoredAs letTokens
      [⟨TokenType.let_.code, [], by decide, by decide, by decide⟩,
        ⟨TT_IDENTIFIER, cstr "a", by decide, by decide, by decide⟩,
        ⟨TokenType.assign.code, [], by decide, by decide, by decide⟩,
        ⟨TT_VARIABLE, cstr "$x", by decide, by decide, by decide⟩] :=
    .cons ⟨rfl, rfl⟩ (.cons ⟨rfl, rfl⟩ (.cons ⟨rfl, rfl⟩ (.cons ⟨rfl, rfl⟩ .nil)))
  exact ⟨_, hstored, array_reads_as_tokens (fun _ env => (env, env)) hstored _ _⟩

end ScOpen
