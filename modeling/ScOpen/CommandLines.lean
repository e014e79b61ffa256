import ScOpen.MemoryBytes

/-!
# Command lines

On a connection with the command protocol `handler()` reads until a chunk has a line feed. It
collects the chunks in `reply`, but then copies the last chunk over them.
-/

namespace ScOpen

def commandRead : ℕ := 127

inductive Handled where
  | waits
  | failed
  | commands (reply : Bytes)

/-- The loop of `handler()` for the command protocol, on what `my_read()` hands over; `none` is a
read that fails or a client that is gone. -/
def commandLoop : Bytes → List (Option Bytes) → Handled
  | _, [] => .waits
  | _, none :: _ => .failed
  | reply, some buf :: reads =>
      let reply := reply ++ buf
      if chr '\n' ∈ cString buf then
        let reply := cString buf
        .commands reply
      else commandLoop reply reads

structure ArrivingLine where
  line : Bytes
  chunks : List Bytes
  newline_notMem : chr '\n' ∉ line
  flatten_eq : chunks.flatten = line ++ [chr '\n']
  chunk : ∀ buf ∈ chunks, 0 < buf.length ∧ buf.length ≤ commandRead

/-- `commands()` gets exactly the line. -/
def ArrivingLine.Passed (l : ArrivingLine) : Prop :=
  commandLoop [] (l.chunks.map some) = .commands (l.line ++ [chr '\n'])

/-- Chunks without a line feed are only collected. -/
theorem commandLoop_append {before : List Bytes} (h : ∀ buf ∈ before, chr '\n' ∉ buf)
    (reply : Bytes) (reads : List (Option Bytes)) :
    commandLoop reply (before.map some ++ reads) = commandLoop (reply ++ before.flatten) reads := by
  induction before generalizing reply with
  | nil => simp
  | cons buf before ih =>
      obtain ⟨hbuf, hbefore⟩ := List.forall_mem_cons.1 h
      have hno : chr '\n' ∉ cString buf := fun hmem => hbuf ((List.takeWhile_sublist _).subset hmem)
      rw [List.map_cons, List.cons_append, commandLoop]
      simp only [if_neg hno]
      rw [ih hbefore, List.flatten_cons, List.append_assoc]

/-- The line feed is at the end of the last chunk. -/
theorem ArrivingLine.exists_last (l : ArrivingLine) :
    ∃ before rest, l.chunks = before ++ [rest ++ [chr '\n']] ∧
      l.line = before.flatten ++ rest := by
  have hflatten := l.flatten_eq
  rcases List.eq_nil_or_concat l.chunks with hchunks | ⟨before, last, hchunks⟩
  · rw [hchunks] at hflatten
    simp at hflatten
  · rw [List.concat_eq_append] at hchunks
    have hlast : last ≠ [] := List.length_pos_iff.1 (l.chunk last (by rw [hchunks]; simp)).1
    obtain ⟨rest, c, rfl⟩ : ∃ rest c, last = rest ++ [c] :=
      ⟨_, _, (List.dropLast_append_getLast hlast).symm⟩
    rw [hchunks, List.flatten_append, List.flatten_singleton, ← List.append_assoc] at hflatten
    obtain ⟨heq, hc⟩ := List.append_inj' hflatten rfl
    exact ⟨before, rest, by rw [hchunks, hc], heq.symm⟩

/-- The line is passed exactly when it arrives in one chunk, and has no terminator in it. -/
theorem command_line_passed_iff (l : ArrivingLine) :
    l.Passed ↔ l.chunks.length = 1 ∧ 0 ∉ l.line := by
  obtain ⟨before, rest, hchunks, hline⟩ := l.exists_last
  have hnewline := l.newline_notMem
  rw [hline, List.mem_append, not_or] at hnewline
  have hbefore : ∀ buf ∈ before, chr '\n' ∉ buf :=
    fun buf hbuf hmem => hnewline.1 (List.mem_flatten.2 ⟨buf, hbuf, hmem⟩)
  have hrun : commandLoop [] (l.chunks.map some) =
      commandLoop before.flatten [some (rest ++ [chr '\n'])] := by
    rw [hchunks, List.map_append, List.map_singleton, commandLoop_append hbefore]
    rfl
  rw [ArrivingLine.Passed, hrun]
  by_cases hzero : 0 ∈ rest
  · have hstring : cString (rest ++ [chr '\n']) = cString rest := by
      obtain ⟨hidden, hrest⟩ := cString_append_zero hzero
      have hbehind : rest ++ [chr '\n'] = cString rest ++ 0 :: (hidden ++ [chr '\n']) := by
        nth_rewrite 1 [hrest]
        rw [List.append_assoc, List.cons_append]
      rw [hbehind]
      exact cString_zero (zero_notMem_cString rest) _
    have hno : chr '\n' ∉ cString (rest ++ [chr '\n']) := by
      rw [hstring]
      exact fun hmem => hnewline.2 ((List.takeWhile_sublist _).subset hmem)
    refine iff_of_false ?_ fun hand => hand.2 ?_
    · rw [commandLoop]
      simp only [if_neg hno, commandLoop]
      exact fun h => by cases h
    · rw [hline]
      exact List.mem_append_right _ hzero
  · have hstring : cString (rest ++ [chr '\n']) = rest ++ [chr '\n'] := by
      refine cString_eq_self ?_
      rw [List.mem_append, List.mem_singleton, not_or]
      exact ⟨hzero, by decide⟩
    have hyes : chr '\n' ∈ cString (rest ++ [chr '\n']) := by
      rw [hstring]
      exact List.mem_append_right _ (List.mem_singleton_self _)
    have hstep : commandLoop before.flatten [some (rest ++ [chr '\n'])] =
        .commands (rest ++ [chr '\n']) := by
      rw [commandLoop]
      exact (if_pos hyes).trans (congrArg Handled.commands hstring)
    rw [hstep, hline, hchunks, Handled.commands.injEq, List.append_cancel_right_eq,
      List.length_append, List.length_singleton]
    constructor
    · intro heq
      have hflat : before.flatten = [] := List.self_eq_append_left.1 heq
      have hbefore' : before = [] := by
        refine List.eq_nil_iff_forall_not_mem.2 fun buf hbuf => ?_
        have hempty := List.flatten_eq_nil_iff.1 hflat buf hbuf
        have hchunk := (l.chunk buf (by rw [hchunks]; exact List.mem_append_left _ hbuf)).1
        rw [hempty] at hchunk
        exact absurd hchunk (Nat.lt_irrefl 0)
      subst hbefore'
      exact ⟨rfl, hzero⟩
    · rintro ⟨hlength, -⟩
      have hbefore' : before = [] := List.length_eq_zero_iff.1 (by omega)
      subst hbefore'
      rfl

def cutLine : ArrivingLine where
  line := cstr "exit"
  chunks := [cstr "ex", cstr "it\n"]
  newline_notMem := by decide
  flatten_eq := by decide
  chunk := by decide

/-- Only the last chunk is passed. -/
theorem command_line_not_always_passed : ¬∀ l : ArrivingLine, l.Passed := by
  intro h
  have hrun : commandLoop [] (cutLine.chunks.map some) = .commands (cstr "it\n") := rfl
  have hpassed : Handled.commands (cstr "it\n") = .commands (cstr "exit" ++ [chr '\n']) :=
    hrun.symm.trans (h cutLine)
  rw [Handled.commands.injEq] at hpassed
  exact absurd hpassed (by decide)

end ScOpen
