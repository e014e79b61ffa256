import ScOpen.Interpreter
import ScOpen.LineNumbers
import ScOpen.OpenTransTable
import ScOpen.ReadEnds
import ScOpen.VariableStore

/-!
# Loading one program after another

A program that is loaded replaces the tokens and the variables of the one before it. The counters,
the timers, the open transactions and the flag of `skip_token()` stay, and a variable that has been
deleted cannot be deleted again. Where a program is loaded only once all of these are clear, it is
loaded as in a new process, and no program is resumed by what an earlier one has started.
-/

namespace ScOpen

/-! ## Reading a program -/

def PpLibrary.withUnwritten (lib : PpLibrary) (unwritten : ℕ → Bytes) : PpLibrary :=
  { lib with unwritten := unwritten }

namespace Reading

def ReadingEnd.stored : ReadingEnd → Option PpState
  | .finished pp => some pp
  | .ppError => none
  | .overrun => none

/-- `read_program()` up to where the program is executed, given the flag of `skip_token()`. -/
def readProgram (lib : PpLibrary) (n : ℕ) (args : ReadArgs) (skipFlag : Bool) : Option PpState :=
  (readingOf lib args skipFlag).bind fun st =>
    (Halting.run (Reading.step lib) n st).bind ReadingEnd.stored

/-- The text of a macro that is read here has no end of a line that is stored with a number. -/
def LineNamed (lib : PpLibrary) (st : Reading) : Prop :=
  st.at_ = .loop → st.top.file = none → ∀ type text rest,
    getTokenText lib st.top.ppFlag st.top.source = .token type text rest →
      NoLineStored st.top st.pp.skipFlag type text

/-- No macro of the program has a line in its text. -/
def LinesNamed (lib : PpLibrary) (args : ReadArgs) : Prop :=
  ∀ st st', readingOf lib args false = some st → Halting.Reaches (Reading.step lib) st st' →
    st'.LineNamed lib

section

variable {lib : PpLibrary} {unwritten : ℕ → Bytes} {type : UInt8} {text rest : Bytes}
  {st : Reading}

theorem keep_unwritten
    (h : type = TT_END_OF_LINE → text ≠ cstr ";" → st.top.file ≠ none) :
    st.keep (lib.withUnwritten unwritten) type text = st.keep lib type text := by
  by_cases hend : type = TT_END_OF_LINE
  · subst hend
    by_cases htext : text = cstr ";"
    · have hsemicolon : ∀ lib, st.keep lib TT_END_OF_LINE text =
          .inl (st.withPp (st.pp.save [TT_END_OF_LINE])) := by
        intro lib
        rw [keep, if_neg (by decide), if_neg (by decide), if_pos rfl]
        exact if_pos htext
      rw [hsemicolon, hsemicolon]
    · obtain ⟨file, hfile⟩ := Option.ne_none_iff_exists'.1 (h rfl htext)
      have hline : ∀ lib, st.keep lib TT_END_OF_LINE text = .inl { st with
          top := { st.top with lineNumber := st.top.lineNumber + 1 }
          pp := (st.pp.save [TT_END_OF_LINE]).saveLine file (st.top.lineNumber + 1) } := by
        intro lib
        rw [keep, if_neg (by decide), if_neg (by decide), if_pos rfl]
        dsimp only
        rw [if_neg htext, hfile]
        rfl
      rw [hline, hline]
  · rw [keep, keep, if_neg hend, if_neg hend]
    rfl

theorem turn_unwritten (h : st.top.file = none → NoLineStored st.top st.pp.skipFlag type text) :
    turn (lib.withUnwritten unwritten) type text (st.moveTo rest) =
      turn lib type text (st.moveTo rest) := by
  rw [turn, turn]
  by_cases hescaped : (st.moveTo rest).top.esc ∧ type = TT_END_OF_LINE
  · rw [if_pos hescaped, if_pos hescaped]
  rw [if_neg hescaped, if_neg hescaped]
  dsimp only
  by_cases hskip : type = TT_COMMENT ∨ (st.moveTo rest).pp.skipFlag = true
  · rw [if_pos hskip, if_pos hskip]
  rw [if_neg hskip, if_neg hskip, keep_unwritten]
  rintro hend htext hfile
  rcases h hfile hend with hesc | hflag | hsemicolon
  · exact hescaped ⟨hesc, hend⟩
  · exact hskip (.inr hflag)
  · exact htext hsemicolon

theorem step_unwritten (h : st.LineNamed lib) :
    st.step (lib.withUnwritten unwritten) = st.step lib := by
  rw [Reading.step, Reading.step]
  cases hat : st.at_ with
  | loop =>
      dsimp only
      rw [lex, lex, show getTokenText (lib.withUnwritten unwritten) = getTokenText lib from rfl]
      cases htoken : getTokenText lib st.top.ppFlag st.top.source with
      | ppError => rfl
      | overrun => rfl
      | token type text rest => exact turn_unwritten fun hfile => h hat hfile _ _ _ htoken
  | argsOpen name value => rfl
  | args name value i => rfl
  | namesOpen name numArgs => rfl
  | names name numArgs i => rfl
  | search file i => rfl

/-- The program that is read does not depend on what the arrays hold. -/
theorem readProgram_unwritten {args : ReadArgs} (h : LinesNamed lib args) (n : ℕ) :
    readProgram (lib.withUnwritten unwritten) n args false = readProgram lib n args false := by
  rw [readProgram, readProgram,
    show readingOf (lib.withUnwritten unwritten) = readingOf lib from rfl]
  cases hst : readingOf lib args false with
  | none => rfl
  | some st =>
      rw [Option.bind_some, Option.bind_some,
        Halting.run_congr fun st' hst' => step_unwritten (h st st' hst hst')]

end

end Reading

open Reading

/-! ## The process -/

/-- A timer or a reply resumes the program: the number of the program that it was started by, that
of the program that is loaded, and where this one is resumed. -/
structure Resumption where
  startedBy : ℕ
  loaded : ℕ
  idx : ℕ
  length : ℕ
  deriving DecidableEq

/-- A process with its tables, the tokens, the variables as the commands leave them, and the history:
programs are numbered as they are loaded. -/
structure Process where
  clock : ℕ
  timers : Timers
  openTransTable : OpenTransTable
  control : Control
  stored : Store
  pp : PpState
  loads : ℕ
  timerBy : Fin MAX_TIMERS → ℕ
  entryBy : Fin MAX_OPEN_TRANS_TABLE → ℕ
  resumed : List Resumption

def Process.start (clock : ℕ) : Process where
  clock := clock
  timers := fun _ => ⟨false, 0, 0, []⟩
  openTransTable := fun _ => ⟨false, 0, 0, firstTimer, 0⟩
  control := ⟨0, 0, 0, fun _ => none, fun _ => none, fun _ => none, fun _ => none, fun _ => none⟩
  stored := []
  pp := ⟨[], false, fun _ => none⟩
  loads := 0
  timerBy := fun _ => 0
  entryBy := fun _ => 0
  resumed := []

inductive ProcessOp where
  | load (unwritten : ℕ → Bytes) (args : ReadArgs) (n : ℕ)
  /-- Commands of the program that is loaded; they leave any counters and variables. -/
  | commands (control : Control) (stored : Store)
  | startTimer (timerIdx seconds : ℤ) (programIdx : ℕ) (msg : Bytes)
  | stopTimer (idx : Fin MAX_TIMERS)
  /-- A send that waits for its reply, while the clock may tick. -/
  | opening (systemBytes : UInt32) (programIdx seconds : ℕ) (msg : Bytes) (ticks : ℕ)
  | reply (systemBytes : UInt32)
  | expiry
  | tick (seconds : ℕ)

/-- `variable_delete_all()` deletes the numbered variables. -/
def Control.deleteAll (c : Control) : Control :=
  { c with
    returnIdx := fun _ => none
    forIdx := fun _ => none
    forTo := fun _ => none
    forStep := fun _ => none
    whileIdx := fun _ => none }

def Process.resume (s : Process) (startedBy idx : ℕ) : Process :=
  { s with resumed := ⟨startedBy, s.loads, idx, s.pp.program.length⟩ :: s.resumed }

section

variable (lib : PpLibrary)

/-- What has no next state has ended the process. -/
def Process.step (s : Process) : ProcessOp → Option Process
  | .load unwritten args n =>
      (variableDeleteAll s.stored).bind fun stored =>
        (readProgram (lib.withUnwritten unwritten) n args s.pp.skipFlag).map fun pp =>
          { s with
            control := s.control.deleteAll
            stored := stored
            pp := pp
            loads := s.loads + 1 }
  | .commands control stored => some { s with control := control, stored := stored }
  | .startTimer timerIdx seconds programIdx msg =>
      match startTimer timerIdx seconds programIdx msg s.clock s.timers with
      | none => none
      | some (k, timers) => some { s with
          timers := timers
          timerBy := Function.update s.timerBy k s.loads }
  | .stopTimer idx => some { s with timers := stopTimer idx s.timers }
  | .opening systemBytes programIdx seconds msg ticks =>
      match startTimer (-1) seconds programIdx msg s.clock s.timers with
      | none => none
      | some (k, timers) =>
          match openTransTableAdd programIdx systemBytes k seconds (s.clock + ticks)
              s.openTransTable with
          | none => none
          | some (i, table) => some { s with
              clock := s.clock + ticks
              timers := timers
              openTransTable := table
              timerBy := Function.update s.timerBy k s.loads
              entryBy := Function.update s.entryBy i s.loads }
  | .reply systemBytes =>
      match findEntry systemBytes s.openTransTable,
          openTransTableDel systemBytes s.clock s.openTransTable s.timers with
      | some i, (some idx, table, timers) => some
          ({ s with openTransTable := table, timers := timers }.resume (s.entryBy i) idx)
      | _, (_, table, timers) => some { s with openTransTable := table, timers := timers }
  | .expiry =>
      match timerHandler s.clock s.timers with
      | (none, timers) => some { s with timers := timers }
      | (some k, timers) => some
          ({ s with timers := timers }.resume (s.timerBy k) (s.timers k).programIdx)
  | .tick seconds => some { s with clock := s.clock + seconds }

/-- Nothing of an earlier program is left: the counters and the flag are clear, no variable has been
deleted, no timer runs, and the time of all transactions, completed or not, is over. -/
structure Process.Clear (s : Process) : Prop where
  nest : s.control.nest = 0
  forNest : s.control.forNest = 0
  whileNest : s.control.whileNest = 0
  skipFlag : s.pp.skipFlag = false
  stored : ∀ v ∈ s.stored, v.name ≠ []
  timers : ∀ k, (s.timers k).active = false
  openTransTable : ∀ i, (s.openTransTable i).endTime < s.clock

/-- Programs are loaded only when nothing is left, and their macros have no lines. -/
def Process.InOrder (s : Process) : ProcessOp → Prop
  | .load _ args _ => s.Clear ∧ LinesNamed lib args
  | _ => True

/-- What a program finds: the tokens, the preprocessor's flag and stored, the counters with their
stored, and the other variables. -/
def Process.found (s : Process) : PpState × Control × Store := (s.pp, s.control, s.stored)

/-- The load does what it does in a new process, with all counters zero. -/
structure Process.LoadsLikeNew (s : Process) (unwritten : ℕ → Bytes) (args : ReadArgs) (n : ℕ) :
    Prop where
  found : ∀ unwritten', (s.step lib (.load unwritten args n)).map Process.found =
    ((Process.start 1).step lib (.load unwritten' args n)).map Process.found
  counters : ∀ s', s.step lib (.load unwritten args n) = some s' →
    s'.control.nest = 0 ∧ s'.control.forNest = 0 ∧ s'.control.whileNest = 0

/-- A program is resumed by what it has started itself, or behind its end. -/
def Process.ResumedByItself (s : Process) : Prop :=
  ∀ r ∈ s.resumed, r.startedBy = r.loaded ∨ r.length ≤ r.idx

def Process.Starts (s : Process) : Prop := ∃ clock, 0 < clock ∧ s = .start clock

abbrev Process.Reached : Process → Prop :=
  Runs.Reaches (Process.step lib) (Process.InOrder lib) Process.Starts

structure Process.Right (s : Process) : Prop where
  timers : ∀ k, (s.timers k).active = true → s.timerBy k = s.loads
  openTransTable : ∀ i, s.entryBy i = s.loads ∨ (s.openTransTable i).endTime < s.clock
  resumed : ∀ r ∈ s.resumed, r.startedBy = r.loaded

end

section

variable {lib : PpLibrary} {s s' : Process}

theorem Process.Starts.right (h : s.Starts) : s.Right := by
  obtain ⟨clock, hclock, rfl⟩ := h
  refine ⟨fun k hactive => absurd hactive Bool.false_ne_true, fun i => .inr hclock, ?_⟩
  intro r hr
  cases hr

theorem Process.Right.load (hs : s.Right) {unwritten : ℕ → Bytes} {args : ReadArgs} {n : ℕ}
    (hclear : s.Clear) (h : s.step lib (.load unwritten args n) = some s') : s'.Right := by
  obtain ⟨stored, -, hread⟩ := Option.bind_eq_some_iff.1 h
  obtain ⟨pp, -, rfl⟩ := Option.map_eq_some_iff.1 hread
  refine ⟨?_, fun i => .inr (hclear.openTransTable i), hs.resumed⟩
  intro k hactive
  rw [hclear.timers k] at hactive
  cases hactive

/-- A timer that is started by the program that is loaded. -/
theorem Process.Right.started (hs : s.Right) {timerIdx seconds : ℤ} {programIdx : ℕ}
    {msg : Bytes} {k : Fin MAX_TIMERS} {timers : Timers}
    (h : ScOpen.startTimer timerIdx seconds programIdx msg s.clock s.timers = some (k, timers))
    (j : Fin MAX_TIMERS) (hactive : (timers j).active = true) :
    Function.update s.timerBy k s.loads j = s.loads := by
  obtain ⟨-, rfl⟩ := startTimer_place h
  by_cases hj : j = k
  · rw [hj, Function.update_self]
  · rw [Function.update_of_ne hj] at hactive ⊢
    exact hs.timers j hactive

theorem Process.Right.stopTimer (hs : s.Right) (k j : Fin MAX_TIMERS)
    (hactive : (ScOpen.stopTimer k s.timers j).active = true) : s.timerBy j = s.loads := by
  by_cases hj : j = k
  · rw [hj, stopTimer_self] at hactive
    cases hactive
  · rw [stopTimer_ne hj] at hactive
    exact hs.timers j hactive

theorem Process.Right.opening (hs : s.Right) {systemBytes : UInt32}
    {programIdx seconds ticks : ℕ} {msg : Bytes}
    (h : s.step lib (.opening systemBytes programIdx seconds msg ticks) = some s') : s'.Right := by
  simp only [Process.step] at h
  split at h
  · cases h
  · rename_i k timers hstart
    split at h
    · cases h
    · rename_i i table hadd
      cases h
      refine ⟨hs.started hstart, ?_, hs.resumed⟩
      intro j
      rw [openTransTableAdd_entry hadd]
      by_cases hj : j = i
      · left
        rw [hj]
        exact Function.update_self _ _ _
      · simp only [Function.update_of_ne hj]
        rw [cleanUp_eq]
        rcases hs.openTransTable j with hby | hover
        · exact .inl hby
        · exact .inr (hover.trans_le (Nat.le_add_right _ _))

theorem closeEntry_endTime (i j : Fin MAX_OPEN_TRANS_TABLE) (table : OpenTransTable) :
    (closeEntry i table j).endTime = (table j).endTime := by
  by_cases h : j = i
  · rw [h, closeEntry_self]
  · rw [closeEntry_ne h]

theorem Process.Right.reply (hs : s.Right) {systemBytes : UInt32}
    (h : s.step lib (.reply systemBytes) = some s') : s'.Right := by
  simp only [Process.step] at h
  rcases openTransTableDel_cases systemBytes s.clock s.openTransTable s.timers with
    ⟨i, hfind, hintime, hdel⟩ | ⟨-, hdel⟩
  · rw [hfind, hdel] at h
    cases h
    refine ⟨fun j => hs.stopTimer _ j, ?_, ?_⟩
    · intro j
      exact (hs.openTransTable j).imp_right (closeEntry_endTime i j _).trans_lt
    · intro r hr
      rcases List.mem_cons.1 hr with rfl | hr
      · rcases hs.openTransTable i with hby | hover
        · exact hby
        · omega
      · exact hs.resumed r hr
  · have hsame : s' = s := by
      rw [hdel] at h
      split at h
      · rename_i heq
        cases heq
      · rename_i heq _
        cases heq
        cases h
        rfl
    rw [hsame]
    exact hs

theorem Process.Right.expiry (hs : s.Right) (h : s.step lib .expiry = some s') : s'.Right := by
  simp only [Process.step, timerHandler] at h
  cases hoverdue : overdueTimer s.clock s.timers with
  | none =>
      rw [hoverdue] at h
      cases h
      exact hs
  | some k =>
      rw [hoverdue] at h
      cases h
      refine ⟨fun j => hs.stopTimer k j, hs.openTransTable, ?_⟩
      intro r hr
      rcases List.mem_cons.1 hr with rfl | hr
      · exact hs.timers k (overdueTimer_expired hoverdue).1
      · exact hs.resumed r hr

theorem Process.Right.step {op : ProcessOp} (hs : s.Right) (hok : s.InOrder lib op)
    (h : s.step lib op = some s') : s'.Right := by
  cases op with
  | load unwritten args n => exact hs.load hok.1 h
  | commands control stored =>
      cases h
      exact ⟨hs.timers, hs.openTransTable, hs.resumed⟩
  | startTimer timerIdx seconds programIdx msg =>
      simp only [Process.step] at h
      split at h
      · cases h
      · rename_i k timers hstart
        cases h
        exact ⟨hs.started hstart, hs.openTransTable, hs.resumed⟩
  | stopTimer idx =>
      cases h
      exact ⟨hs.stopTimer idx, hs.openTransTable, hs.resumed⟩
  | opening systemBytes programIdx seconds msg ticks => exact hs.opening h
  | reply systemBytes => exact hs.reply h
  | expiry => exact hs.expiry h
  | tick seconds =>
      cases h
      refine ⟨hs.timers, ?_, hs.resumed⟩
      intro i
      exact (hs.openTransTable i).imp_right fun hover => hover.trans_le (Nat.le_add_right _ _)

theorem Control.deleteAll_zero {c : Control} (hnest : c.nest = 0) (hfor : c.forNest = 0)
    (hwhile : c.whileNest = 0) : c.deleteAll = (Process.start 1).control.deleteAll := by
  obtain ⟨nest, forNest, whileNest, returnIdx, forIdx, forTo, forStep, whileIdx⟩ := c
  cases hnest
  cases hfor
  cases hwhile
  rfl

theorem Process.Clear.load (hclear : s.Clear) {unwritten : ℕ → Bytes} {args : ReadArgs} {n : ℕ} :
    (s.step lib (.load unwritten args n)).map Process.found =
      (readProgram (lib.withUnwritten unwritten) n args false).map fun pp =>
        (pp, (Process.start 1).control.deleteAll, []) := by
  have hnone : ¬ ∃ v ∈ s.stored, v.name = [] := by
    rintro ⟨v, hv, hname⟩
    exact hclear.stored v hv hname
  rw [Process.step, variableDeleteAll, if_neg hnone, Option.bind_some, hclear.skipFlag,
    Option.map_map, Control.deleteAll_zero hclear.nest hclear.forNest hclear.whileNest]
  rfl

theorem Process.start_clear {clock : ℕ} (hclock : 0 < clock) : (Process.start clock).Clear where
  nest := rfl
  forNest := rfl
  whileNest := rfl
  skipFlag := rfl
  stored := fun _ hv => absurd hv List.not_mem_nil
  timers := fun _ => rfl
  openTransTable := fun _ => hclock

theorem Process.Clear.loadsLikeNew (hclear : s.Clear) {args : ReadArgs} (hlines : LinesNamed lib args)
    (unwritten : ℕ → Bytes) (n : ℕ) : s.LoadsLikeNew lib unwritten args n := by
  refine ⟨fun unwritten' => ?_, fun s' hload => ?_⟩
  · rw [hclear.load, (Process.start_clear Nat.one_pos).load, readProgram_unwritten hlines,
      readProgram_unwritten hlines]
  · obtain ⟨stored, -, hread⟩ := Option.bind_eq_some_iff.1 hload
    obtain ⟨pp, -, rfl⟩ := Option.map_eq_some_iff.1 hread
    exact ⟨hclear.nest, hclear.forNest, hclear.whileNest⟩

/-- In every run in which programs are loaded only when nothing is left of the earlier ones, a
program is loaded as in a new process, with all counters zero, and it is resumed only by timers and
replies of its own. -/
theorem reload_right (h : s.Reached lib) :
    (∀ unwritten args n, s.InOrder lib (.load unwritten args n) →
      s.LoadsLikeNew lib unwritten args n) ∧ s.ResumedByItself := by
  have hs : s.Right := h.invariant (fun _ => Process.Starts.right) fun _ _ _ => Process.Right.step
  refine ⟨?_, fun r hr => .inl (hs.resumed r hr)⟩
  intro unwritten args n hok
  exact hok.1.loadsLikeNew hok.2 unwritten n

end

/-! ## A timer of an earlier program -/

def numberFile : PpLibrary where
  tokenType _ := TT_UNKNOWN
  functionType _ := TT_UNKNOWN
  files := [(cstr "p", cstr "1")]
  unwritten _ := []

def plainArgs : ReadArgs := ⟨[], some (cstr "p")⟩

def numberStart : Reading := Reading.start (cstr "p") (cstr "1") false ⟨[], false, fun _ => none⟩

theorem numberFile_linesNamed : LinesNamed numberFile plainArgs := by
  intro st st' hst hreached hat hfile
  have hfirst : readingOf numberFile plainArgs false = some numberStart := rfl
  rw [hfirst] at hst
  cases hst
  have hnamed : st'.top.file = some (cstr "p") := by
    rcases hreached.cases_head with rfl | ⟨st₁, hnumber, hrest⟩
    · rfl
    · have hnext : numberStart.step numberFile = .inl (numberStart.next numberFile) := rfl
      rw [hnext] at hnumber
      cases hnumber
      rcases hrest.cases_head with rfl | ⟨st₂, hend, -⟩
      · rfl
      · have hfinished : ∃ pp, (numberStart.next numberFile).step numberFile =
            .inr (.finished pp) := ⟨_, rfl⟩
        obtain ⟨pp, hpp⟩ := hfinished
        rw [hpp] at hend
        cases hend
  rw [hnamed] at hfile
  cases hfile

def ownTimer : List ProcessOp :=
  [.load (fun _ => []) plainArgs 9, .startTimer 0 5 0 [],
    .commands (Process.start 1).control [⟨cstr "()a", [], .user, 0⟩], .tick 5, .expiry]

theorem reload_right_second :
    ∃ s, ownTimer.foldlM (Process.step numberFile) (Process.start 100) = some s ∧
      s.LoadsLikeNew numberFile (fun _ => cstr "stack") plainArgs 9 ∧ s.ResumedByItself ∧
      s.resumed ≠ [] := by
  obtain ⟨s, hs, hclear, hresumed⟩ : ∃ s, ownTimer.foldlM (Process.step numberFile)
      (Process.start 100) = some s ∧ s.Clear ∧ s.resumed ≠ [] := by
    refine ⟨_, rfl, ⟨rfl, rfl, rfl, rfl, ?_, ?_, ?_⟩, ?_⟩
    all_goals decide +kernel
  have hstart : Process.Reached numberFile (Process.start 100) := .start ⟨100, by decide, rfl⟩
  have hadmits : Runs.Admits (Process.step numberFile) (Process.InOrder numberFile)
      (Process.start 100) ownTimer := by
    refine ⟨⟨Process.start_clear (by decide), numberFile_linesNamed⟩, fun s' _ => ?_⟩
    exact ⟨trivial, fun _ _ => ⟨trivial, fun _ _ => ⟨trivial, fun _ _ => ⟨trivial,
      fun _ _ => trivial⟩⟩⟩⟩
  have hright := reload_right (hstart.admits hadmits hs)
  exact ⟨s, hs, hright.1 _ _ 9 ⟨hclear, numberFile_linesNamed⟩, hright.2, hresumed⟩

/-- A timer of the first program goes off after the second one has been loaded, and resumes it. -/
theorem reload_not_always_right :
    ∃ s, Runs.Reaches (Process.step numberFile) (fun _ _ => True) Process.Starts s ∧
      ¬s.ResumedByItself := by
  have hrun : ∃ s, [ProcessOp.load (fun _ => []) plainArgs 9, .startTimer 0 5 0 [],
      .load (fun _ => []) plainArgs 9, .tick 5, .expiry].foldlM (Process.step numberFile)
        (Process.start 100) = some s ∧ s.resumed = [⟨1, 2, 0, 8⟩] := ⟨_, rfl, by decide +kernel⟩
  obtain ⟨s, hs, hresumed⟩ := hrun
  refine ⟨s, Runs.Reaches.run (.start ⟨100, by decide, rfl⟩) hs, ?_⟩
  intro hright
  have hfirst := hright ⟨1, 2, 0, 8⟩ (by rw [hresumed]; exact List.mem_singleton_self _)
  revert hfirst
  decide

end ScOpen
