import ScOpen.LineFeeds
import ScOpen.Runs

/-!
# The numbers of the lines

The number of the line is counted at the end of a line that is stored, at one behind a `\`, and
inside of strings, definitions and comments. A stored line is numbered by what has been counted, so
a line feed that is taken anywhere else makes the numbers of all lines behind it wrong.
-/

namespace ScOpen

namespace Reading

/-! ## What is stored -/

def OnLine (t : ReadText) (n : ℕ) : Prop :=
  ∃ before, cString t.text = before ++ cString t.source ∧ n = lineFeeds before + 1

def tokenBytes (type : UInt8) (text : Bytes) : Bytes :=
  if IsTerminated type then type :: (text ++ [0])
  else if type = TT_STRING then type :: (leBytes 4 text.length ++ text)
  else [type]

def lineBytes (file : Bytes) (n : ℕ) : Bytes :=
  TT_LINE_NUMBER :: (cString file ++ cstr ":" ++ decimal n ++ [0])

/-- What a turn adds to the program, where `t` is the text that is read then. Behind the end of a
line or in front of a file it may be the number of a line, which is the one that the text is at. -/
inductive Adds (t : ReadText) : Bytes → Prop
  | nothing : Adds t []
  | token {type : UInt8} (text : Bytes) (htype : type ≠ TT_LINE_NUMBER) :
      Adds t (tokenBytes type text)
  | line {file : Bytes} {n : ℕ} (hfile : t.file = some file) (h : OnLine t n) :
      Adds t (lineBytes file n)
  | lineEnd {file : Bytes} {n : ℕ} (hfile : t.file = some file) (h : OnLine t n) :
      Adds t (TT_END_OF_LINE :: lineBytes file n)

def AddsRight (pp : PpState) (st : Reading) : Prop :=
  ∃ added, st.pp.program = pp.program ++ added ∧ Adds st.top added

theorem saveLine_program (pp : PpState) (file : Bytes) {n : ℕ} (h : n < 2 ^ 31) :
    (pp.saveLine file n).program = pp.program ++ lineBytes file n := by
  have hint : intText (Int.bmod n (2 ^ 32)) = decimal n := by
    rw [Int.bmod_eq_of_le (by omega) (by omega), intText, if_neg (by omega), Int.natAbs_natCast]
  rw [PpState.saveLine, PpState.save_save, lineNumberText, hint]
  rfl

theorem addsRight_nothing {pp : PpState} {st : Reading} (h : st.pp.program = pp.program) :
    AddsRight pp st :=
  ⟨[], by rw [h, List.append_nil], .nothing⟩

/-! ## Where the count is right -/

/-- A token in the main loop of a file leaves the count right. The end of a line takes a line feed
where it is counted, and takes none where it is not; constants have no line feed; and those of a
string are the ones that it takes. -/
structure LineKept (t : ReadText) (skipFlag : Bool) (type : UInt8) (text : Bytes) : Prop where
  escaped : type = TT_END_OF_LINE → t.esc = true → EndsLine (cString t.source) text
  skipped : type = TT_END_OF_LINE → t.esc = false → skipFlag = true →
    ¬ EndsLine (cString t.source) text
  stored : type = TT_END_OF_LINE → t.esc = false → skipFlag = false → text ≠ cstr ";" →
    EndsLine (cString t.source) text ∧ t.lineNumber + 1 < 2 ^ 31
  constant : type = TT_CONSTANT → chr '\n' ∉ text
  string : type = TT_STRING → StringLines false (behindQuote (cString t.source))

/-- The text of a macro has no end of a line that is stored with a number. -/
def NoLineStored (t : ReadText) (skipFlag : Bool) (type : UInt8) (text : Bytes) : Prop :=
  type = TT_END_OF_LINE → t.esc = true ∨ skipFlag = true ∨ text = cstr ";"

/-- A turn leaves the count right: the arguments of a macro are on one line, and a token of the main
loop is as it has to be in a file or in a macro. -/
def LinesKept (lib : PpLibrary) (st : Reading) : Prop :=
  ∀ type text rest, getTokenText lib st.top.ppFlag st.top.source = .token type text rest →
    match st.at_ with
    | .loop =>
        if st.top.file = none then NoLineStored st.top st.pp.skipFlag type text
        else LineKept st.top st.pp.skipFlag type text
    | .argsOpen _ _ | .args _ _ _ => st.top.file ≠ none → newLines rest = newLines st.top.source
    | _ => True

def ReadAt.inNames : ReadAt → Bool
  | .namesOpen _ _ | .names _ _ _ => true
  | _ => false

/-- The invariant: in each file that is read, the count is the line of the place. -/
structure LinesRight (st : Reading) : Prop where
  files : ∀ t ∈ st.top :: st.outer, t.file ≠ none → OnLine t t.lineNumber
  names : ReadAt.inNames st.at_ = true → st.top.file = none

section

variable {lib : PpLibrary} {type : UInt8} {text rest w : Bytes} {st st' : Reading} {t : ReadText}
  {n : ℕ}

theorem zero_notMem_rest {source : Bytes} (htaken : cString source = w ++ rest) : 0 ∉ rest := by
  have hsource := zero_notMem_cString source
  rw [htaken, List.mem_append, not_or] at hsource
  exact hsource.2

theorem OnLine.take (h : OnLine t n) (htaken : cString t.source = w ++ rest) :
    OnLine { t with source := rest } (n + lineFeeds w) := by
  obtain ⟨before, hsplit, rfl⟩ := h
  refine ⟨before ++ w, ?_, ?_⟩
  · rw [cString_eq_self (zero_notMem_rest htaken), hsplit, htaken, List.append_assoc]
  · rw [lineFeeds_append, Nat.add_right_comm]

theorem LinesRight.of_top (h : LinesRight st) (hat : ReadAt.inNames st'.at_ = false)
    (houter : st'.outer = st.outer)
    (htop : st'.top.file ≠ none → OnLine st'.top st'.top.lineNumber) : LinesRight st' := by
  refine ⟨List.forall_mem_cons.2 ⟨htop, ?_⟩, fun hnames => ?_⟩
  · rw [houter]
    exact (List.forall_mem_cons.1 h.files).2
  · rw [hat] at hnames
    cases hnames

theorem LinesRight.enter (h : LinesRight st) {call : ReadCall} {pp : PpState}
    (hcall : call.file ≠ none → call.lineNumber = 1) : LinesRight (st.enter call pp) := by
  refine ⟨List.forall_mem_cons.2 ⟨fun hfile => ?_, h.files⟩, fun hnames => by cases hnames⟩
  refine ⟨[], rfl, ?_⟩
  exact hcall hfile

/-- A file is entered at its first line. -/
theorem LinesRight.enterFile (h : LinesRight st) {name source added : Bytes} {pp : PpState}
    (hadded : st.pp.program = pp.program ++ added)
    (hline : added = [] ∨ added = [TT_END_OF_LINE]) :
    LinesRight (st.enterFile name source) ∧ AddsRight pp (st.enterFile name source) := by
  refine ⟨h.enter fun _ => rfl, added ++ lineBytes name 1, ?_, ?_⟩
  · change (st.pp.saveLine name 1).program = _
    rw [saveLine_program _ _ (by decide), hadded, List.append_assoc]
  · have hfirst : OnLine (st.enterFile name source).top 1 := ⟨[], rfl, rfl⟩
    rcases hline with rfl | rfl
    · exact .line rfl hfirst
    · exact .lineEnd rfl hfirst

/-! ## A turn -/

/-- A token that is not replaced is stored as it is, unless it is the end of a line. -/
theorem keep_token (lib : PpLibrary) (h : ¬ st.Replaced type text) (hend : type ≠ TT_END_OF_LINE)
    (hline : type ≠ TT_LINE_NUMBER) :
    st.keep lib type text = .inl (st.withPp (st.pp.save (tokenBytes type text))) := by
  have hidentifier : type = TT_IDENTIFIER → st.substitution text = none := by
    intro htype
    by_contra hsome
    exact h (.inr (.inr (.inr ⟨htype, Option.isSome_iff_ne_none.2 hsome⟩)))
  have hinclude : type ≠ TT_POUND_INCLUDE := fun htype => h (.inl htype)
  have hdefine : type ≠ TT_POUND_DEFINE := fun htype => h (.inr (.inl htype))
  have hifdef : type ≠ TT_POUND_IFDEF := fun htype => h (.inr (.inr (.inl htype)))
  rw [keep]
  by_cases hterminated : type = TT_NUMBER ∨ type = TT_CONSTANT ∨ type = TT_VARIABLE
  · have hkind : IsTerminated type := by
      rcases hterminated with rfl | rfl | rfl
      · decide
      · decide
      · decide
    rw [if_pos hterminated, PpState.save_save, tokenBytes, if_pos hkind]
    rfl
  rw [if_neg hterminated]
  by_cases htype : type = TT_IDENTIFIER
  · have hkind : IsTerminated type := by
      rw [htype]
      decide
    simp only [if_pos htype, hidentifier htype, PpState.save_save]
    rw [tokenBytes, if_pos hkind]
    rfl
  rw [if_neg htype, if_neg hend]
  have hnot : ¬ IsTerminated type := by
    rintro (h | h | h | h | h)
    · exact hterminated (.inl h)
    · exact hterminated (.inr (.inl h))
    · exact htype h
    · exact hterminated (.inr (.inr h))
    · exact hline h
  by_cases hstring : type = TT_STRING
  · rw [if_pos hstring, PpState.save_save, PpState.save_save, tokenBytes, if_neg hnot,
      if_pos hstring]
    rfl
  · rw [if_neg hstring, if_neg hinclude, if_neg hdefine, if_neg hifdef, tokenBytes, if_neg hnot,
      if_neg hstring]

theorem keep_right (h : LinesRight st) (hat : st.at_ = .loop) (hend : type ≠ TT_END_OF_LINE)
    (hline : type ≠ TT_LINE_NUMBER) (hkeep : st.keep lib type text = .inl st') :
    LinesRight st' ∧ AddsRight st.pp st' := by
  have htop : ∀ {pp : PpState} {at_ : ReadAt}, ReadAt.inNames at_ = false →
      LinesRight { st with at_ := at_, pp := pp } := by
    intro pp at_ hat
    exact h.of_top hat rfl (h.files _ List.mem_cons_self)
  have hloop : ReadAt.inNames st.at_ = false := by
    rw [hat]
    rfl
  by_cases hreplaced : st.Replaced type text
  · cases keep_cases hkeep with
    | stored hnot => exact absurd hreplaced hnot
    | args _ _ => exact ⟨htop rfl, addsRight_nothing rfl⟩
    | value _ _ => exact ⟨h.enter fun hfile => absurd rfl hfile, addsRight_nothing rfl⟩
    | file _ _ =>
        have hsaved : LinesRight (st.withPp (st.pp.save [TT_END_OF_LINE])) := htop hloop
        exact hsaved.enterFile rfl (.inr rfl)
    | search htype =>
        exact ⟨htop rfl, _, rfl, @Adds.token _ TT_END_OF_LINE [] (by decide)⟩
    | define _ _ => exact ⟨htop hloop, addsRight_nothing rfl⟩
    | ifdef _ => exact ⟨htop hloop, addsRight_nothing rfl⟩
  · rw [keep_token lib hreplaced hend hline] at hkeep
    cases hkeep
    exact ⟨htop hloop, _, rfl, .token text hline⟩

/-- At the end of a line, whose line feed has been taken but not counted. -/
theorem keep_endOfLine {st₀ : Reading} (hkeep : st.keep lib TT_END_OF_LINE text = .inl st')
    (h : LinesRight st₀) (houter : st.outer = st₀.outer) (hat : ReadAt.inNames st.at_ = false)
    (hsemicolon : text = cstr ";" → st.top.file ≠ none → OnLine st.top st.top.lineNumber)
    (hline : text ≠ cstr ";" → st.top.file ≠ none ∧ OnLine st.top (st.top.lineNumber + 1) ∧
      st.top.lineNumber + 1 < 2 ^ 31) : LinesRight st' ∧ AddsRight st.pp st' := by
  rw [keep, if_neg (by decide), if_neg (by decide), if_pos rfl] at hkeep
  dsimp only at hkeep
  by_cases htext : text = cstr ";"
  · rw [if_pos htext] at hkeep
    cases hkeep
    exact ⟨h.of_top hat houter (hsemicolon htext), _, rfl,
      @Adds.token _ TT_END_OF_LINE [] (by decide)⟩
  · rw [if_neg htext] at hkeep
    cases hkeep
    obtain ⟨hfile, hplace, hsmall⟩ := hline htext
    obtain ⟨file, hfile⟩ := Option.ne_none_iff_exists'.1 hfile
    refine ⟨h.of_top hat houter fun _ => hplace, _, ?_, .lineEnd hfile hplace⟩
    rw [hfile]
    exact (saveLine_program _ _ hsmall).trans (List.append_assoc _ _ _)

def counted (type : UInt8) (text : Bytes) : ℕ :=
  if type = TT_STRING ∨ type = TT_POUND_DEFINE ∨ type = TT_COMMENT then newLines text else 0

theorem counted_eq {skipFlag : Bool} (hlines : TypeLines (cString t.source) text w type)
    (hkept : LineKept t skipFlag type text) (hend : type ≠ TT_END_OF_LINE) :
    counted type text = lineFeeds w := by
  rw [counted]
  by_cases hstring : type = TT_STRING
  · rw [if_pos (.inl hstring), hlines.string hstring (hkept.string hstring)]
  by_cases hdata : type = TT_POUND_DEFINE ∨ type = TT_COMMENT
  · rw [if_pos (.inr hdata), hlines.data hdata]
  rw [if_neg (not_or.2 ⟨hstring, hdata⟩)]
  by_cases hconstant : type = TT_CONSTANT
  · rw [hlines.constant hconstant, lineFeeds_eq_zero (hkept.constant hconstant)]
  · rw [hlines.other hend hconstant hstring hdata]

theorem turn_right (h : LinesRight st) (hat : st.at_ = .loop)
    (htaken : cString st.top.source = w ++ rest)
    (hlines : TypeLines (cString st.top.source) text w type) (hline : type ≠ TT_LINE_NUMBER)
    (hvalue : st.top.file = none → NoLineStored st.top st.pp.skipFlag type text)
    (hfile : st.top.file ≠ none → LineKept st.top st.pp.skipFlag type text)
    (hturn : turn lib type text (st.moveTo rest) = .inl st') :
    LinesRight st' ∧ AddsRight st.pp st' := by
  have hloop : ReadAt.inNames st.at_ = false := by
    rw [hat]
    rfl
  have hplace : ∀ {n : ℕ}, st.top.file ≠ none → lineFeeds w = n →
      OnLine (st.moveTo rest).top (st.top.lineNumber + n) := by
    rintro n hfile rfl
    exact (h.files _ List.mem_cons_self hfile).take htaken
  rw [turn] at hturn
  by_cases hnull : type = TT_NULL_TOKEN
  · rw [if_pos hnull] at hturn
    cases houter : st.outer with
    | nil =>
        rw [show (st.moveTo rest).outer = [] from houter] at hturn
        cases hturn
    | cons caller outer =>
        rw [show (st.moveTo rest).outer = caller :: outer from houter] at hturn
        cases hturn
        have hfiles := (List.forall_mem_cons.1 h.files).2
        rw [houter] at hfiles
        refine ⟨⟨hfiles, fun hnames => ?_⟩, addsRight_nothing rfl⟩
        rw [show ReadAt.inNames st.at_ = true from hnames] at hloop
        cases hloop
  rw [if_neg hnull] at hturn
  by_cases hescaped : (st.moveTo rest).top.esc ∧ type = TT_END_OF_LINE
  · rw [if_pos hescaped] at hturn
    cases hturn
    refine ⟨h.of_top hloop rfl fun hne => ?_, addsRight_nothing rfl⟩
    have hone : lineFeeds w = 1 := by
      rw [hlines.endOfLine hescaped.2, if_pos ((hfile hne).escaped hescaped.2 hescaped.1)]
    exact hplace hne hone
  rw [if_neg hescaped] at hturn
  by_cases hesc : type = TT_ESC
  · rw [if_pos hesc] at hturn
    cases hturn
    refine ⟨h.of_top hloop rfl fun hne => ?_, addsRight_nothing rfl⟩
    have hnone : lineFeeds w = 0 := by
      rw [hesc] at hlines
      exact hlines.other (by decide) (by decide) (by decide) (by decide)
    exact hplace hne hnone
  rw [if_neg hesc] at hturn
  dsimp only at hturn
  generalize hcount : (if type = TT_STRING ∨ type = TT_POUND_DEFINE ∨ type = TT_COMMENT then
    newLines text else 0) = lines at hturn
  -- the count is right behind each token but the end of a line that is stored
  have hcounted : st.top.file ≠ none → type ≠ TT_END_OF_LINE →
      OnLine (st.moveTo rest).top (st.top.lineNumber + lines) := by
    intro hne hend
    exact hplace hne (hcount ▸ (counted_eq hlines (hfile hne) hend).symm)
  by_cases hend : type = TT_END_OF_LINE
  · subst hend
    have hnoesc : st.top.esc = false := Bool.eq_false_iff.2 fun htrue => hescaped ⟨htrue, rfl⟩
    rw [if_neg (by decide)] at hcount
    subst hcount
    rw [if_neg (by decide), if_neg (by decide)] at hturn
    by_cases hskip : st.pp.skipFlag = true
    · rw [if_pos (.inr hskip)] at hturn
      cases hturn
      refine ⟨h.of_top hloop rfl fun hne => ?_, addsRight_nothing rfl⟩
      exact hplace hne ((hlines.endOfLine rfl).trans
        (if_neg ((hfile hne).skipped rfl hnoesc hskip)))
    have hkeeps := Bool.eq_false_iff.2 hskip
    have hstored : ¬ (TT_END_OF_LINE = TT_COMMENT ∨ (st.moveTo rest).pp.skipFlag = true) :=
      not_or.2 ⟨by decide, hskip⟩
    rw [if_neg hstored] at hturn
    have hsemicolon : text = cstr ";" → st.top.file ≠ none →
        OnLine (st.moveTo rest).top st.top.lineNumber := by
      intro htext hne
      exact hplace hne ((hlines.endOfLine rfl).trans (if_neg fun hends => hends.1 htext))
    have hnumber : text ≠ cstr ";" → st.top.file ≠ none ∧
        OnLine (st.moveTo rest).top (st.top.lineNumber + 1) ∧ st.top.lineNumber + 1 < 2 ^ 31 := by
      intro htext
      have hne : st.top.file ≠ none := by
        intro hnil
        rcases hvalue hnil rfl with hesc | hflag | hsemicolon
        · rw [hnoesc] at hesc
          cases hesc
        · exact hskip hflag
        · exact htext hsemicolon
      obtain ⟨hends, hsmall⟩ := (hfile hne).stored rfl hnoesc hkeeps htext
      exact ⟨hne, hplace hne ((hlines.endOfLine rfl).trans (if_pos hends)), hsmall⟩
    have hkept := keep_endOfLine hturn h rfl hloop hsemicolon hnumber
    exact hkept
  have htop : ∀ {pp : PpState}, LinesRight { st.moveTo rest with
      top := { (st.moveTo rest).top with
        lineNumber := (st.moveTo rest).top.lineNumber + lines, esc := false }
      pp := pp } := by
    intro pp
    exact h.of_top hloop rfl fun hne => hcounted hne hend
  by_cases helse : type = TT_POUND_ELSE
  · rw [if_pos helse] at hturn
    cases hturn
    exact ⟨htop, addsRight_nothing rfl⟩
  rw [if_neg helse] at hturn
  by_cases hendif : type = TT_POUND_ENDIF
  · rw [if_pos hendif] at hturn
    cases hturn
    exact ⟨htop, addsRight_nothing rfl⟩
  rw [if_neg hendif] at hturn
  by_cases hskip : type = TT_COMMENT ∨ (st.moveTo rest).pp.skipFlag = true
  · rw [if_pos hskip] at hturn
    cases hturn
    exact ⟨htop, addsRight_nothing rfl⟩
  · rw [if_neg hskip] at hturn
    have hkept := keep_right (@htop st.pp) hat hend hline hturn
    exact hkept

/-- The arguments of a macro are read without a line feed. -/
theorem moveTo_right (h : LinesRight st) (hargs : ReadAt.inNames st.at_ = false)
    (htaken : cString st.top.source = w ++ rest)
    (hsame : st.top.file ≠ none → newLines rest = newLines st.top.source) :
    LinesRight (st.moveTo rest) := by
  refine h.of_top hargs rfl fun hne => ?_
  have hnone : lineFeeds w = 0 := by
    have heq := hsame hne
    have hall : newLines st.top.source = lineFeeds w + lineFeeds rest := by
      rw [newLines, htaken]
      exact lineFeeds_append w rest
    rw [newLines_eq (zero_notMem_rest htaken), hall] at heq
    omega
  have hright := (h.files _ List.mem_cons_self hne).take htaken
  rw [hnone] at hright
  exact hright

/-- In the value of a macro nothing is counted. -/
theorem LinesRight.of_names (h : LinesRight st) (hnames : ReadAt.inNames st.at_ = true)
    (houter : st'.outer = st.outer) (hfile : st'.top.file = st.top.file) : LinesRight st' := by
  have hnil : st'.top.file = none := hfile.trans (h.names hnames)
  refine ⟨List.forall_mem_cons.2 ⟨fun hne => absurd hnil hne, ?_⟩, fun _ => hnil⟩
  rw [houter]
  exact (List.forall_mem_cons.1 h.files).2

theorem step_right (hlib : lib.Words) (h : LinesRight st) (hkept : LinesKept lib st)
    (hstep : st.step lib = .inl st') : LinesRight st' ∧ AddsRight st.pp st' := by
  rw [Reading.step] at hstep
  cases hat : st.at_ with
  | loop =>
      rw [hat] at hstep
      obtain ⟨type, text, rest, htoken, hturn⟩ := lex_cases hstep
      obtain ⟨⟨w, htaken, hlines⟩, hline⟩ := getTokenText_lines hlib htoken
      have hcond := hkept _ _ _ htoken
      rw [hat] at hcond
      dsimp only at hcond
      refine turn_right h hat htaken hlines hline (fun hnil => ?_) (fun hne => ?_) hturn
      · rw [if_pos hnil] at hcond
        exact hcond
      · rw [if_neg hne] at hcond
        exact hcond
  | argsOpen name value =>
      rw [hat] at hstep
      obtain ⟨type, text, rest, htoken, hturn⟩ := lex_cases hstep
      obtain ⟨⟨w, htaken, -⟩, -⟩ := getTokenText_lines hlib htoken
      have hcond := hkept _ _ _ htoken
      rw [hat] at hcond
      have hargs : ReadAt.inNames st.at_ = false := by
        rw [hat]
        rfl
      have hmoved := moveTo_right h hargs htaken hcond
      by_cases hopen : type = TT_OPEN_PAREN
      · rw [if_pos hopen] at hturn
        cases hturn
        exact ⟨hmoved.of_top rfl rfl (hmoved.files _ List.mem_cons_self), addsRight_nothing rfl⟩
      · rw [if_neg hopen] at hturn
        cases hturn
  | args name value i =>
      rw [hat] at hstep
      obtain ⟨type, text, rest, htoken, hturn⟩ := lex_cases hstep
      obtain ⟨⟨w, htaken, -⟩, -⟩ := getTokenText_lines hlib htoken
      have hcond := hkept _ _ _ htoken
      rw [hat] at hcond
      have hargs : ReadAt.inNames st.at_ = false := by
        rw [hat]
        rfl
      have hmoved := moveTo_right h hargs htaken hcond
      have htop := hmoved.files _ List.mem_cons_self
      obtain ⟨-, rfl | rfl | rfl⟩ := argTurn_cases hturn
      · refine ⟨⟨List.forall_mem_cons.2 ⟨fun hne => absurd rfl hne, hmoved.files⟩, fun _ => rfl⟩,
          addsRight_nothing rfl⟩
      · exact ⟨hmoved, addsRight_nothing rfl⟩
      · exact ⟨hmoved.of_top rfl rfl htop, addsRight_nothing rfl⟩
  | namesOpen name numArgs =>
      rw [hat] at hstep
      obtain ⟨type, text, rest, htoken, hturn⟩ := lex_cases hstep
      have hnames : ReadAt.inNames st.at_ = true := by
        rw [hat]
        rfl
      by_cases hopen : type = TT_OPEN_PAREN
      · rw [if_pos hopen] at hturn
        cases hturn
        exact ⟨h.of_names hnames rfl rfl, addsRight_nothing rfl⟩
      · rw [if_neg hopen] at hturn
        cases hturn
  | names name numArgs i =>
      rw [hat] at hstep
      obtain ⟨type, text, rest, htoken, hturn⟩ := lex_cases hstep
      have hnames : ReadAt.inNames st.at_ = true := by
        rw [hat]
        rfl
      obtain ⟨-, rfl | rfl | ⟨arg, rfl, -⟩⟩ := nameTurn_cases hturn
      · exact ⟨h.of_names hnames rfl rfl, addsRight_nothing rfl⟩
      · exact ⟨h.of_names hnames rfl rfl, addsRight_nothing rfl⟩
      · exact ⟨h.of_names hnames rfl rfl, addsRight_nothing rfl⟩
  | search file i =>
      rw [hat] at hstep
      dsimp only at hstep
      cases hpath : st.pp.macros (includeStr i) with
      | none =>
          rw [hpath] at hstep
          cases hstep
      | some path =>
          simp only [hpath] at hstep
          cases hfile : lib.files.lookup (path ++ chr '/' :: file) with
          | none =>
              rw [hfile] at hstep
              cases hstep
              exact ⟨h.of_top rfl rfl (h.files _ List.mem_cons_self), addsRight_nothing rfl⟩
          | some source =>
              rw [hfile] at hstep
              cases hstep
              exact h.enterFile (List.append_nil _).symm (.inl rfl)

end

/-! ## Every run -/

def readStep (lib : PpLibrary) (st : Reading) (_ : Unit) : Option Reading := (st.step lib).getLeft?

theorem readStep_some {lib : PpLibrary} {st st' : Reading} (h : readStep lib st () = some st') :
    st.step lib = .inl st' := Sum.getLeft?_eq_some_iff.1 h

/-- In every run of turns that leave the count right, each number that is stored is that of the line
of the file on which what follows starts. -/
theorem line_numbers_right {lib : PpLibrary} (hlib : lib.Words) (file text : Bytes) (ppFlag : Bool)
    (pp : PpState) :
    AddsRight pp (start file text ppFlag pp) ∧
      ∀ st st', Runs.Reaches (readStep lib) (fun st _ => LinesKept lib st)
          (· = start file text ppFlag pp) st →
        LinesKept lib st → st.step lib = .inl st' → AddsRight st.pp st' := by
  have hfirst : OnLine (start file text ppFlag pp).top 1 := ⟨[], rfl, rfl⟩
  have hstart : LinesRight (start file text ppFlag pp) := by
    refine ⟨List.forall_mem_singleton.2 fun _ => hfirst, fun hnames => by cases hnames⟩
  refine ⟨⟨_, saveLine_program pp file (by decide), .line rfl hfirst⟩, ?_⟩
  intro st st' hreaches hkept hstep
  have hright : LinesRight st := by
    refine hreaches.invariant ?_ ?_
    · rintro s rfl
      exact hstart
    · intro s a s' hs hok hnext
      exact (step_right hlib hs hok (readStep_some hnext)).1
  exact (step_right hlib hright hkept hstep).2

def twoLines : Reading := start (cstr "program") (cstr "1\n2") true ⟨[], false, fun _ => none⟩

theorem noKeywords_words : noKeywords.Words := by
  have hle : TT_UNKNOWN ≤ TT_UNKNOWN := by decide
  exact ⟨fun _ => hle, fun _ => hle⟩

theorem linesKept_of_token {lib : PpLibrary} {st : Reading} {type : UInt8} {text rest : Bytes}
    (hat : st.at_ = .loop) (hfile : st.top.file ≠ none)
    (htoken : getTokenText lib st.top.ppFlag st.top.source = .token type text rest)
    (h : LineKept st.top st.pp.skipFlag type text) : LinesKept lib st := by
  intro type' text' rest' htoken'
  rw [htoken] at htoken'
  cases htoken'
  rw [hat]
  dsimp only
  rw [if_neg hfile]
  exact h

theorem line_numbers_right_second :
    AddsRight (twoLines.next noKeywords).pp ((twoLines.next noKeywords).next noKeywords) := by
  have hnumber : LinesKept noKeywords twoLines := by
    refine @linesKept_of_token _ _ TT_NUMBER _ _ rfl (by decide) rfl ⟨?_, ?_, ?_, ?_, ?_⟩
    all_goals exact fun h => absurd h (by decide)
  have hend : LinesKept noKeywords (twoLines.next noKeywords) := by
    refine @linesKept_of_token _ _ TT_END_OF_LINE _ _ rfl (by decide) rfl ⟨?_, ?_, ?_, ?_, ?_⟩
    · exact fun _ h => absurd h (by decide)
    · exact fun _ _ h => absurd h (by decide)
    · exact fun _ _ _ _ => by decide
    · exact fun h => absurd h (by decide)
    · exact fun h => absurd h (by decide)
  have hreaches : Runs.Reaches (readStep noKeywords) (fun st _ => LinesKept noKeywords st)
      (· = twoLines) (twoLines.next noKeywords) := .next (a := ()) (.start rfl) hnumber rfl
  exact (line_numbers_right noKeywords_words _ _ _ _).2 _ _ hreaches hend rfl

/-! ## A part that is left out -/

theorem OnLine.eq {t : ReadText} {n : ℕ} (h : OnLine t n) :
    n + newLines t.source = newLines t.text + 1 := by
  obtain ⟨before, hsplit, rfl⟩ := h
  have hall : newLines t.text = lineFeeds before + newLines t.source := by
    rw [newLines, hsplit]
    exact lineFeeds_append _ _
  rw [hall]
  omega

theorem lineBytes_inj {file : Bytes} {m n : ℕ} (h : lineBytes file m = lineBytes file n) :
    m = n := by
  have htext := List.append_cancel_right (List.cons.inj h).2
  exact decimal_injective (List.append_cancel_left htext)

/-- What a turn adds tells the line, when it is the end of a line with a number. -/
theorem Adds.onLine {t : ReadText} {file : Bytes} {n : ℕ} (hfile : t.file = some file)
    (h : Adds t (TT_END_OF_LINE :: lineBytes file n)) : OnLine t n := by
  generalize hadded : TT_END_OF_LINE :: lineBytes file n = added at h
  cases h with
  | nothing => cases hadded
  | @token type text htype =>
      rw [tokenBytes] at hadded
      split_ifs at hadded with hterminated hstring
      · have hend := (List.cons.inj hadded).1
        rw [← hend] at hterminated
        exact absurd hterminated (by decide)
      · have hend := (List.cons.inj hadded).1
        rw [← hend] at hstring
        exact absurd hstring (by decide)
      · cases (List.cons.inj hadded).2
  | line _ _ => exact absurd (List.cons.inj hadded).1 (by decide)
  | lineEnd hfile' hplace =>
      rw [hfile] at hfile'
      cases hfile'
      rw [lineBytes_inj (List.cons.inj hadded).2]
      exact hplace

theorem reaches_next {lib : PpLibrary} {st : Reading} {n : ℕ}
    (h : ∀ k < n, (((next lib)^[k] st).step lib).isLeft = true) :
    Runs.Reaches (readStep lib) (fun _ _ => True) (· = st) ((next lib)^[n] st) := by
  have hstart : Runs.Reaches (readStep lib) (fun _ _ => True) (· = st) st := .start rfl
  refine hstart.iterate (a := ()) fun k hk => ⟨trivial, ?_⟩
  rw [readStep, step_next (h k hk)]
  rfl

def leftOutLine : Reading :=
  start (cstr "program") (cstr "#ifdef A\nx\n#endif\ny\n") true ⟨[], false, fun _ => none⟩

def behindEndif : Reading := (next noKeywords)^[5] leftOutLine

theorem line_numbers_not_always_right :
    ¬ ∀ (lib : PpLibrary) (file text : Bytes) (ppFlag : Bool) (pp : PpState), lib.Words →
      file ≠ [] → ∀ st st', Runs.Reaches (readStep lib) (fun _ _ => True)
          (· = start file text ppFlag pp) st →
        st.step lib = .inl st' → AddsRight st.pp st' := by
  intro h
  have hreaches : Runs.Reaches (readStep noKeywords) (fun _ _ => True) (· = leftOutLine)
      behindEndif := reaches_next (by decide +kernel)
  have hstep : behindEndif.step noKeywords = .inl (behindEndif.next noKeywords) := rfl
  obtain ⟨added, hprogram, hadds⟩ :=
    h _ _ _ _ _ noKeywords_words (by decide) _ _ hreaches hstep
  have hsaved : (behindEndif.next noKeywords).pp =
      (behindEndif.pp.save [TT_END_OF_LINE]).saveLine (cstr "program") 2 := rfl
  have hgrown : behindEndif.pp.program ++ (TT_END_OF_LINE :: lineBytes (cstr "program") 2) =
      behindEndif.pp.program ++ added := by
    rw [← hprogram, hsaved, saveLine_program _ _ (by decide)]
    exact List.append_cons _ _ _
  rw [← List.append_cancel_left hgrown] at hadds
  have hline := (@Adds.onLine (behindEndif.next noKeywords).top (cstr "program") 2 rfl hadds).eq
  exact absurd hline (by decide +kernel)

end Reading

end ScOpen
