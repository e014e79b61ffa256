import ScOpen.ReadTokens

/-!
# Reads in any order

In every run of reads, put backs and jumps to kept indices the interpreter stands in front of a
stored token. A put back leads to the token of the last read, and a kept index to the tokens that
were left where it was asked for.
-/

namespace ScOpen

def tokenAt (xs : List StoredToken) (k : ℕ) : UInt8 × Bytes :=
  (xs[k]?.map fun t => (t.type, t.text)).getD (TT_NULL_TOKEN, [])

def tokensFrom (xs : List StoredToken) (k n : ℕ) : List (UInt8 × Bytes) :=
  (List.range n).map fun i => tokenAt xs (k + i)

/-- The interpreter with the token of its last read and the states it asked for the index in. -/
structure Reader where
  program : StoredProgram
  last : Option (UInt8 × Bytes)
  obtained : List StoredProgram

inductive ReadOp where
  | get
  | put
  | getIdx
  | setIdx (p : StoredProgram)

/-- A token is put back after a read only, and an index is set that was asked for. -/
def Reader.step (r : Reader) : ReadOp → Option Reader
  | .get =>
      some { r with
        program := r.program.getProgramTokenNoEval.2
        last := some r.program.getProgramTokenNoEval.1 }
  | .put => if r.last.isSome then some { r with program := r.program.putProgramToken } else none
  | .getIdx => some { r with obtained := r.program :: r.obtained }
  | .setIdx p => some { r with program := r.program.setProgramTokenIdx p.getProgramTokenIdx }

def Reader.Obtained (r : Reader) : ReadOp → Prop
  | .setIdx p => p ∈ r.obtained
  | _ => True

def Reader.Starts (program : Bytes) (r : Reader) : Prop :=
  r.program.program = program ∧ r.program.programIdx = 0 ∧ r.last = none ∧ r.obtained = []

abbrev Reader.Reached (program : Bytes) : Reader → Prop :=
  Runs.Reaches Reader.step Reader.Obtained (Reader.Starts program)

structure StoredProgram.At (xs : List StoredToken) (k : ℕ) (p : StoredProgram) : Prop where
  program : p.program = tokenFormat.array xs
  idx : p.programIdx = tokenFormat.offset xs k

section

variable {xs : List StoredToken}

theorem StoredProgram.At.get {p : StoredProgram} {k : ℕ} (h : p.At xs k) :
    p.getProgramTokenNoEval = (tokenAt xs k, { p with
      savedProgramIdx := p.programIdx
      programIdx := tokenFormat.offset xs (k + 1) }) := by
  rw [StoredProgram.getProgramTokenNoEval]
  by_cases hend : xs.length ≤ k
  · have hidx := tokenFormat.offset_end hend
    have hnext := tokenFormat.offset_end (hend.trans (Nat.le_succ k))
    have hpast : p.program.length ≤ p.programIdx := by
      rw [h.program, h.idx, hidx]
    rw [if_pos hpast, tokenAt, List.getElem?_eq_none hend, hnext, ← hidx, ← h.idx]
    rfl
  · have hlt : k < xs.length := by omega
    have hat := List.getElem?_eq_getElem hlt
    have hinside : ¬ p.program.length ≤ p.programIdx := by
      rw [h.program, h.idx, not_le]
      exact tokenFormat.offset_lt hlt
    have hdecode : decodeProgramToken (p.program.drop p.programIdx) =
        (tokenFormat.value xs[k], (tokenFormat.write xs[k]).length) := by
      rw [h.program, h.idx]
      exact tokenFormat.read_offset hat
    rw [if_neg hinside, hdecode, tokenFormat.offset_succ hat, ← h.idx, tokenAt, hat]
    rfl

theorem StoredProgram.At.next {p : StoredProgram} {k : ℕ} (h : p.At xs k) :
    p.getProgramTokenNoEval.2.At xs (k + 1) := by
  rw [h.get]
  exact ⟨h.program, rfl⟩

/-- The tokens are read in the order they are stored in. -/
theorem StoredProgram.At.reads {p : StoredProgram} {k : ℕ} (h : p.At xs k) (n : ℕ) :
    StoredProgram.reads n p = tokensFrom xs k n := by
  induction n generalizing p k with
  | zero => rfl
  | succ n ih =>
      have hrest : tokensFrom xs (k + 1) n =
          (List.range n).map fun i => tokenAt xs (k + (i + 1)) := by
        rw [tokensFrom]
        apply List.map_congr_left
        intro i _
        rw [Nat.add_assoc, Nat.add_comm 1 i]
      rw [StoredProgram.reads, ih h.next, h.get, hrest, tokensFrom, List.range_succ_eq_map,
        List.map_cons, List.map_map]
      rfl

/-! ## Every run -/

structure Reader.Right (xs : List StoredToken) (r : Reader) : Prop where
  at_token : ∃ k, r.program.At xs k
  saved : ∀ t, r.last = some t → ∃ k, r.program.savedProgramIdx = tokenFormat.offset xs k ∧
    t = tokenAt xs k
  obtained : ∀ p ∈ r.obtained, ∃ k, p.At xs k

theorem Reader.Starts.right {r : Reader} (h : r.Starts (tokenFormat.array xs)) : r.Right xs := by
  obtain ⟨hprogram, hidx, hlast, hobtained⟩ := h
  refine ⟨⟨0, hprogram, hidx⟩, ?_, ?_⟩
  · intro t ht
    rw [hlast] at ht
    cases ht
  · intro p hp
    rw [hobtained] at hp
    cases hp

theorem Reader.Right.step {r r' : Reader} {op : ReadOp} (hr : r.Right xs) (hok : r.Obtained op)
    (h : r.step op = some r') : r'.Right xs := by
  obtain ⟨k, hat⟩ := hr.at_token
  cases op with
  | get =>
      cases h
      refine ⟨⟨k + 1, hat.next⟩, ?_, hr.obtained⟩
      intro t ht
      rw [hat.get] at ht
      cases ht
      exact ⟨k, by rw [hat.get]; exact hat.idx, rfl⟩
  | put =>
      rw [Reader.step] at h
      split_ifs at h with hsome
      cases h
      obtain ⟨t, ht⟩ := Option.isSome_iff_exists.1 hsome
      obtain ⟨j, hsaved, -⟩ := hr.saved t ht
      exact ⟨⟨j, hat.program, hsaved⟩, hr.saved, hr.obtained⟩
  | getIdx =>
      cases h
      refine ⟨hr.at_token, hr.saved, ?_⟩
      intro p hp
      rcases List.mem_cons.1 hp with rfl | hp
      · exact hr.at_token
      · exact hr.obtained p hp
  | setIdx p =>
      cases h
      obtain ⟨j, hj⟩ := hr.obtained p hok
      exact ⟨⟨j, hat.program, hj.idx⟩, hr.saved, hr.obtained⟩

theorem Reader.Reached.right {r : Reader} (h : r.Reached (tokenFormat.array xs)) : r.Right xs :=
  h.invariant (fun _ => Reader.Starts.right) fun _ _ _ => Reader.Right.step

end

/-- In every run, the reads from the first index on give the stored tokens, those from anywhere
else what follows some stored token; a put back leads to the token of the last read again, and an
index to the tokens that were left when it was asked for. -/
theorem stored_tokens_read {file : Bytes} {skip : Bool} {tokens : List Lexeme} {r : Reader}
    (h : r.Reached (readIt file skip tokens)) :
    (∀ n, StoredProgram.reads n (r.program.setProgramTokenIdx 0) =
      tokensFrom (storedTokens file skip tokens) 0 n) ∧
    (∃ k, ∀ n, StoredProgram.reads n r.program = tokensFrom (storedTokens file skip tokens) k n) ∧
    (∀ t, r.last = some t → r.program.putProgramToken.getProgramTokenNoEval.1 = t) ∧
    ∀ p ∈ r.obtained, ∀ n,
      StoredProgram.reads n (r.program.setProgramTokenIdx p.getProgramTokenIdx) =
        StoredProgram.reads n p := by
  rw [readIt_eq] at h
  have hr := h.right
  obtain ⟨k, hat⟩ := hr.at_token
  refine ⟨fun n => ?_, ⟨k, hat.reads⟩, fun t ht => ?_, fun p hp n => ?_⟩
  · have hzero : (r.program.setProgramTokenIdx 0).At (storedTokens file skip tokens) 0 :=
      ⟨hat.program, rfl⟩
    exact hzero.reads n
  · obtain ⟨j, hsaved, htoken⟩ := hr.saved t ht
    have hback : r.program.putProgramToken.At (storedTokens file skip tokens) j :=
      ⟨hat.program, hsaved⟩
    rw [hback.get, htoken]
  · obtain ⟨j, hj⟩ := hr.obtained p hp
    have hset : (r.program.setProgramTokenIdx p.getProgramTokenIdx).At
        (storedTokens file skip tokens) j := ⟨hat.program, hj.idx⟩
    rw [hset.reads, hj.reads]

def stringAndNumber : List Lexeme :=
  [⟨TT_STRING, [0, 65], by unfold IsDirective; decide, by decide, by decide, by decide⟩,
    ⟨TT_NUMBER, cstr "7", by unfold IsDirective; decide, by decide, by decide, by decide⟩]

theorem stored_tokens_read_three :
    ∃ r : Reader, r.Reached (readIt (cstr "p") false stringAndNumber) ∧
      StoredProgram.reads 3 (r.program.setProgramTokenIdx 0) =
        [(TT_LINE_NUMBER, cstr "p:1"), (TT_STRING, [0, 65]), (TT_NUMBER, cstr "7")] ∧
      r.program.putProgramToken.getProgramTokenNoEval.1 = (TT_LINE_NUMBER, cstr "p:1") := by
  have hstart : Reader.Starts (readIt (cstr "p") false stringAndNumber)
      ⟨⟨readIt (cstr "p") false stringAndNumber, 0, 0⟩, none, []⟩ := ⟨rfl, rfl, rfl, rfl⟩
  have hfirst : Reader.Reached (readIt (cstr "p") false stringAndNumber) _ := .start hstart
  have hreached := hfirst.next (a := ReadOp.get) trivial rfl
  obtain ⟨hreads, -, hback, -⟩ := stored_tokens_read hreached
  refine ⟨_, hreached, (hreads 3).trans ?_, hback _ ?_⟩
  · decide +kernel
  · decide +kernel

end ScOpen
