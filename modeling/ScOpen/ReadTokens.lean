import ScOpen.Runs
import ScOpen.StoredTokens

/-!
# Reading the stored tokens

The tokens are read from one array, at an index that any command may keep and go back to. Every
index that the interpreter comes to is where a stored token starts, so what is read from there is
the rest of what was stored.
-/

namespace ScOpen

/-- `decode_program_token()`: the type, the text, and how many bytes they take. -/
def decodeProgramToken (ptr : Bytes) : (UInt8 × Bytes) × ℕ :=
  let type := ptr.headD 0
  let ptr := ptr.tail
  if IsTerminated type then ((type, cString ptr), 1 + ((cString ptr).length + 1))
  else if type = TT_STRING then
    let length := leValue (ptr.take 4)
    ((type, (ptr.drop 4).take length), 1 + 4 + length)
  else ((type, []), 1)

/-- `program`, `program_idx` and `saved_program_idx`. -/
structure StoredProgram where
  program : Bytes
  programIdx : ℕ
  savedProgramIdx : ℕ

namespace StoredProgram

def getProgramTokenNoEval (p : StoredProgram) : (UInt8 × Bytes) × StoredProgram :=
  if p.program.length ≤ p.programIdx then
    ((TT_NULL_TOKEN, []), { p with savedProgramIdx := p.programIdx })
  else
    let decoded := decodeProgramToken (p.program.drop p.programIdx)
    (decoded.1, { p with
      savedProgramIdx := p.programIdx
      programIdx := p.programIdx + decoded.2 })

def putProgramToken (p : StoredProgram) : StoredProgram := { p with programIdx := p.savedProgramIdx }

def getProgramTokenIdx (p : StoredProgram) : ℕ := p.programIdx

def setProgramTokenIdx (idx : ℕ) (p : StoredProgram) : StoredProgram := { p with programIdx := idx }

def reads : ℕ → StoredProgram → List (UInt8 × Bytes)
  | 0, _ => []
  | n + 1, p => p.getProgramTokenNoEval.1 :: reads n p.getProgramTokenNoEval.2

end StoredProgram

/-! ## One token -/

theorem decode_terminated {type : UInt8} (h : IsTerminated type) (ptr : Bytes) :
    decodeProgramToken (type :: ptr) = ((type, cString ptr), 1 + ((cString ptr).length + 1)) :=
  if_pos h

theorem decode_string (ptr : Bytes) :
    decodeProgramToken (TT_STRING :: ptr) =
      ((TT_STRING, (ptr.drop 4).take (leValue (ptr.take 4))), 1 + 4 + leValue (ptr.take 4)) := rfl

theorem decode_bare {type : UInt8} (h : ¬ IsTerminated type) (hstring : type ≠ TT_STRING)
    (ptr : Bytes) : decodeProgramToken (type :: ptr) = ((type, []), 1) :=
  (if_neg h).trans (if_neg hstring)

theorem StoredToken.bytes_terminated {t : StoredToken} (h : IsTerminated t.type) :
    t.bytes = t.type :: (t.text ++ [0]) := if_pos h

theorem StoredToken.bytes_string {t : StoredToken} (h : t.type = TT_STRING) :
    t.bytes = t.type :: (leBytes 4 t.text.length ++ t.text) := by
  have hterminated : ¬ IsTerminated t.type := by
    rw [h]
    decide
  rw [StoredToken.bytes, if_neg hterminated, if_pos h]

theorem StoredToken.bytes_bare {t : StoredToken} (h : ¬ IsTerminated t.type)
    (hstring : t.type ≠ TT_STRING) : t.bytes = [t.type] := by
  rw [StoredToken.bytes, if_neg h, if_neg hstring]

theorem decode_bytes (t : StoredToken) (rest : Bytes) :
    decodeProgramToken (t.bytes ++ rest) = ((t.type, t.text), t.bytes.length) := by
  by_cases hterminated : IsTerminated t.type
  · rw [StoredToken.bytes_terminated hterminated, List.cons_append, List.append_assoc,
      List.singleton_append, decode_terminated hterminated, cString_zero (t.no_zero hterminated),
      List.length_cons, List.length_append, List.length_singleton, Nat.add_comm]
  by_cases hstring : t.type = TT_STRING
  · have hsize := length_leBytes 4 t.text.length
    have hvalue : leValue (leBytes 4 t.text.length) = t.text.length := by
      rw [leValue_leBytes]
      exact Nat.mod_eq_of_lt ((t.fits hstring).trans_le (by decide))
    have hnum : 1 + 4 + t.text.length = (leBytes 4 t.text.length).length + t.text.length + 1 := by
      omega
    rw [StoredToken.bytes_string hstring, List.cons_append, List.append_assoc, hstring,
      decode_string, List.take_left' hsize, List.drop_left' hsize, hvalue, List.take_left,
      List.length_cons, List.length_append, hnum]
  · rw [StoredToken.bytes_bare hterminated hstring, List.singleton_append,
      decode_bare hterminated hstring, t.bare hterminated hstring, List.length_singleton]

theorem bytes_ne_nil (t : StoredToken) : t.bytes ≠ [] := by
  rw [StoredToken.bytes]
  split_ifs <;> exact List.cons_ne_nil _ _

def tokenFormat : Layouts.Format StoredToken UInt8 (UInt8 × Bytes) where
  write := StoredToken.bytes
  value t := (t.type, t.text)
  read := decodeProgramToken
  read_write := decode_bytes
  write_ne_nil := bytes_ne_nil

/-! ## All tokens -/

section

variable {file : Bytes} {skip : Bool}

theorem Lexeme.terminated_iff (t : Lexeme) :
    (t.type = TT_NUMBER ∨ t.type = TT_CONSTANT ∨ t.type = TT_VARIABLE ∨
      t.type = TT_IDENTIFIER) ↔ IsTerminated t.type := by
  constructor
  · rintro (h | h | h | h)
    · exact .inl h
    · exact .inr (.inl h)
    · exact .inr (.inr (.inr (.inl h)))
    · exact .inr (.inr (.inl h))
  · rintro (h | h | h | h | h)
    · exact .inl h
    · exact .inr (.inl h)
    · exact .inr (.inr (.inr h))
    · exact .inr (.inr (.inl h))
    · exact absurd h t.no_line_number

theorem stored_terminated {t : Lexeme} (h : IsTerminated t.type) :
    t.stored.bytes = t.type :: (t.text ++ [0]) := by
  have htext : t.stored.text = t.text := if_pos (.inl h)
  rw [StoredToken.bytes_terminated (t := t.stored) h, htext]
  rfl

theorem stored_string {t : Lexeme} (h : t.type = TT_STRING) :
    t.stored.bytes = t.type :: (leBytes 4 t.text.length ++ t.text) := by
  have htext : t.stored.text = t.text := if_pos (.inr h)
  rw [StoredToken.bytes_string (t := t.stored) h, htext]
  rfl

theorem stored_bare {t : Lexeme} (h : ¬ IsTerminated t.type) (hstring : t.type ≠ TT_STRING) :
    t.stored.bytes = [t.type] := StoredToken.bytes_bare (t := t.stored) h hstring

theorem lineToken_bytes (file : Bytes) (n : ℕ) :
    (lineToken file n).bytes = TT_LINE_NUMBER :: (lineNumberText file n ++ [0]) :=
  if_pos (.inr (.inr (.inr (.inr rfl))))

theorem array_one (t : StoredToken) : tokenFormat.array [t] = t.bytes := List.append_nil _

theorem array_two (t u : StoredToken) : tokenFormat.array [t, u] = t.bytes ++ u.bytes := by
  rw [tokenFormat.array_cons, array_one]
  rfl

theorem stores_none {s : ReadState} {t : Lexeme}
    (h : (s.esc ∧ t.type = TT_END_OF_LINE) ∨ t.type = TT_ESC ∨ t.type = TT_COMMENT ∨ skip) :
    s.stores file skip t = [] := if_pos h

/-- One turn of the loop appends what the token is stored as. -/
theorem readToken_program (s : ReadState) (t : Lexeme) :
    (readToken file skip s t).program = s.program ++ tokenFormat.array (s.stores file skip t) := by
  have hnone : s.stores file skip t = [] →
      s.program = s.program ++ tokenFormat.array (s.stores file skip t) := by
    intro h
    rw [h]
    exact (List.append_nil _).symm
  rw [readToken]
  by_cases hescaped : s.esc ∧ t.type = TT_END_OF_LINE
  · rw [if_pos hescaped]
    exact hnone (stores_none (.inl hescaped))
  rw [if_neg hescaped]
  by_cases hesc : t.type = TT_ESC
  · rw [if_pos hesc]
    exact hnone (stores_none (.inr (.inl hesc)))
  rw [if_neg hesc]
  by_cases hcomment : t.type = TT_COMMENT
  · have hterminated : ¬ IsTerminated t.type := by
      rw [hcomment]
      decide
    have hline : t.type ≠ TT_END_OF_LINE := by
      rw [hcomment]
      decide
    have hstring : t.type ≠ TT_STRING := by
      rw [hcomment]
      decide
    simp only [t.terminated_iff, if_neg hterminated, if_neg hline, if_neg hstring, if_pos hcomment]
    exact hnone (stores_none (.inr (.inr (.inl hcomment))))
  cases skip with
  | true =>
      simp only [if_pos, ite_self]
      exact hnone (stores_none (.inr (.inr (.inr rfl))))
  | false =>
      have hkept : ¬ ((s.esc ∧ t.type = TT_END_OF_LINE) ∨ t.type = TT_ESC ∨
          t.type = TT_COMMENT ∨ false = true) := by
        rintro (h | h | h | h)
        · exact hescaped h
        · exact hesc h
        · exact hcomment h
        · exact Bool.false_ne_true h
      rw [ReadState.stores, if_neg hkept]
      simp only [t.terminated_iff, if_neg hcomment, Bool.false_eq_true, if_false]
      by_cases hterminated : IsTerminated t.type
      · have hline : t.type ≠ TT_END_OF_LINE := by
          intro heq
          rw [heq] at hterminated
          revert hterminated
          decide
        have honly : ¬ (t.type = TT_END_OF_LINE ∧ t.text ≠ cstr ";") := fun h => hline h.1
        rw [if_pos hterminated, if_neg honly, array_one, stored_terminated hterminated]
        exact List.append_assoc _ _ _
      rw [if_neg hterminated]
      by_cases hline : t.type = TT_END_OF_LINE
      · have hstring : t.type ≠ TT_STRING := by
          rw [hline]
          decide
        have hbare := stored_bare hterminated hstring
        rw [if_pos hline]
        by_cases hsemicolon : t.text = cstr ";"
        · have honly : ¬ (t.type = TT_END_OF_LINE ∧ t.text ≠ cstr ";") := fun h => h.2 hsemicolon
          rw [if_pos hsemicolon, if_neg honly, array_one, hbare]
          rfl
        · have hnumber : ¬ (t.type = TT_STRING ∨ t.type = TT_COMMENT) :=
            not_or.2 ⟨hstring, hcomment⟩
          have hboth : t.type = TT_END_OF_LINE ∧ t.text ≠ cstr ";" := ⟨hline, hsemicolon⟩
          rw [if_neg hsemicolon, if_pos hboth, array_two, hbare, lineToken_bytes]
          simp only [ReadState.save, if_neg hnumber, List.append_assoc]
          rfl
      have honly : ¬ (t.type = TT_END_OF_LINE ∧ t.text ≠ cstr ";") := fun h => hline h.1
      rw [if_neg hline, if_neg honly, array_one]
      by_cases hstring : t.type = TT_STRING
      · rw [if_pos hstring, stored_string hstring]
        simp only [ReadState.save, List.append_assoc]
        rfl
      · rw [if_neg hstring, stored_bare hterminated hstring]
        rfl

theorem readTokens_program (ts : List Lexeme) (s : ReadState) :
    (readTokens file skip ts s).program =
      s.program ++ tokenFormat.array (storesAll file skip ts s) := by
  induction ts generalizing s with
  | nil => exact (List.append_nil _).symm
  | cons t ts ih =>
      rw [readTokens, storesAll]
      by_cases hnull : t.type = TT_NULL_TOKEN
      · rw [if_pos hnull, if_pos hnull]
        exact (List.append_nil _).symm
      · rw [if_neg hnull, if_neg hnull, ih, readToken_program, tokenFormat.array_append,
          List.append_assoc]

/-- The array holds the tokens that were stored. -/
theorem readIt_eq (tokens : List Lexeme) :
    readIt file skip tokens = tokenFormat.array (storedTokens file skip tokens) := by
  have hfirst : (ReadState.save (ReadState.save ⟨[], 1, false⟩ [TT_LINE_NUMBER])
      (lineNumberText file 1 ++ [0])) = ⟨(lineToken file 1).bytes, 1, false⟩ := by
    rw [lineToken_bytes]
    rfl
  rw [readIt, hfirst, readTokens_program, storedTokens, tokenFormat.array_cons]
  rfl

end

end ScOpen
