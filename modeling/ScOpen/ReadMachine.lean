import ScOpen.ReadSource
import ScOpen.Parse
import ScOpen.Halting

/-!
# Reading a program, turn by turn

The calls of `read_it()` lie on a stack, each with the buffer that it reads and the place in it.
A turn takes one token: in the main loop, in one of the loops over the arguments of a macro, or it
tries one include path. The lexer is `get_token()` on top of `parse()`; the tables of the keywords
are arbitrary.
-/

namespace ScOpen

abbrev TT_UNKNOWN : UInt8 := TokenType.unknown.code

/-- The tables of the keywords and of the functions, the files, and what stands in an array `file`
that nothing has been written to, when so many bytes of the program are stored. -/
structure PpLibrary where
  tokenType : Bytes → UInt8
  functionType : Bytes → UInt8
  files : List (Bytes × Bytes)
  unwritten : ℕ → Bytes

inductive Lexed where
  | token (type : UInt8) (text rest : Bytes)
  | ppError
  | overrun

section

variable (lib : PpLibrary)

def nameToken (ppFlag : Bool) (text rest : Bytes) : Lexed :=
  let type := lib.tokenType text
  if chr '$' ∈ text then .token TT_VARIABLE text rest
  else if type ≠ TT_UNKNOWN then .token type text rest
  else
    match parse rest [] true ppFlag with
    | .ppError => .ppError
    | .overrun => .overrun
    | .token next _ _ =>
        let function := lib.functionType text
        if cString next = cstr "(" ∧ function ≠ TT_UNKNOWN then .token function text rest
        else .token TT_IDENTIFIER text rest

def getTokenText (ppFlag : Bool) (source : Bytes) : Lexed :=
  match parse (cString source) [] true ppFlag with
  | .ppError => .ppError
  | .overrun => .overrun
  | .token text type cnt =>
      let rest := (cString source).drop cnt
      match type with
      | .number => .token TT_NUMBER text rest
      | .null => .token TT_NULL_TOKEN text rest
      | .endOfLine => .token TT_END_OF_LINE text rest
      | .other => .token (lib.tokenType (cString text)) text rest
      | .name => nameToken lib ppFlag text rest
      | .string => .token TT_STRING text rest
      | .constant => .token TT_CONSTANT text rest
      | .poundInclude => .token TT_POUND_INCLUDE text rest
      | .poundIfdef => .token TT_POUND_IFDEF text rest
      | .poundElse => .token TT_POUND_ELSE text rest
      | .poundEndif => .token TT_POUND_ENDIF text rest
      | .poundDefine => .token TT_POUND_DEFINE text rest
      | .comment => .token TT_COMMENT text rest

end

/-! ## The state -/

structure ReadText extends ReadCall where
  text : Bytes

/-- The loops of `read_it()`. The arguments of a macro are read up to the `)`; then its value is
the text, and the names of the arguments are read from it. -/
inductive ReadAt where
  | loop
  | argsOpen (name value : Bytes)
  | args (name value : Bytes) (i : ℕ)
  | namesOpen (name : Bytes) (numArgs : ℕ)
  | names (name : Bytes) (numArgs i : ℕ)
  | search (file : Bytes) (i : ℕ)
  deriving DecidableEq

structure Reading where
  at_ : ReadAt
  top : ReadText
  outer : List ReadText
  pp : PpState

inductive ReadingEnd where
  | finished (pp : PpState)
  | ppError
  | overrun

abbrev ReadTurn : Type := Reading ⊕ ReadingEnd

namespace Reading

def go (st : Reading) (at_ : ReadAt) : Reading := { st with at_ := at_ }

/-- The rest of the text that is read. -/
def moveTo (st : Reading) (rest : Bytes) : Reading :=
  { st with top := { st.top with source := rest } }

def withPp (st : Reading) (pp : PpState) : Reading := { st with pp := pp }

def enter (st : Reading) (call : ReadCall) (pp : PpState) : Reading :=
  ⟨.loop, ⟨call, call.source⟩, st.top :: st.outer, pp⟩

def valueCall (name value : Bytes) : ReadCall := ⟨none, name, true, 0, false, value⟩

def fileCall (name text : Bytes) : ReadCall := ⟨some name, [], true, 1, false, text⟩

def enterFile (st : Reading) (name text : Bytes) : Reading :=
  st.enter (fileCall name text) (st.pp.saveLine name 1)

def substitution (st : Reading) (text : Bytes) : Option (Bytes × Bytes) :=
  if st.top.ppFlag then macroOf st.top.macroName text st.pp.macros else none

section

variable (lib : PpLibrary)

/-- A token is stored, unless it stands for something else. -/
def keep (type : UInt8) (text : Bytes) (st : Reading) : ReadTurn :=
  let pp := st.pp
  if type = TT_NUMBER ∨ type = TT_CONSTANT ∨ type = TT_VARIABLE then
    .inl (st.withPp ((pp.save [type]).save (text ++ [0])))
  else if type = TT_IDENTIFIER then
    match st.substitution text with
    | none => .inl (st.withPp ((pp.save [type]).save (text ++ [0])))
    | some (name, value) =>
        if value = [] then .inr .ppError
        else if firstByte value = chr '(' then .inl (st.go (.argsOpen name value))
        else .inl (st.enter (valueCall st.top.macroName value) pp)
  else if type = TT_END_OF_LINE then
    let pp := pp.save [type]
    if text = cstr ";" then .inl (st.withPp pp)
    else
      let lineNumber := st.top.lineNumber + 1
      .inl { st with
        top := { st.top with lineNumber := lineNumber }
        pp := pp.saveLine (st.top.file.getD (lib.unwritten pp.program.length)) lineNumber }
  else if type = TT_STRING then
    .inl (st.withPp (((pp.save [type]).save (leBytes 4 text.length)).save text))
  else if type = TT_POUND_INCLUDE then
    let st := st.withPp (pp.save [TT_END_OF_LINE])
    if text = [] then .inr .ppError
    else
      match lib.files.lookup text with
      | some source => .inl (st.enterFile text source)
      | none => .inl (st.go (.search text 0))
  else if type = TT_POUND_DEFINE then
    match parse (bufrtrim text) [] false false with
    | .ppError => .inr .ppError
    | .overrun => .inr .overrun
    | .token name _ cnt =>
        match pp.macros (cString name) with
        | some _ => .inr .ppError
        | none =>
            let value := ((bufrtrim text).drop cnt).dropWhile (· = chr ' ')
            .inl (st.withPp (pp.put (cString name) value))
  else if type = TT_POUND_IFDEF then
    match parse (bufrtrim text) [] false false with
    | .ppError => .inr .ppError
    | .overrun => .inr .overrun
    | .token name _ _ =>
        if name = [] then .inr .ppError
        else .inl (st.withPp { pp with skipFlag := (pp.macros (cString name)).isNone })
  else .inl (st.withPp (pp.save [type]))

def turn (type : UInt8) (text : Bytes) (st : Reading) : ReadTurn :=
  if type = TT_NULL_TOKEN then
    match st.outer with
    | [] => .inr (.finished st.pp)
    | caller :: outer => .inl { st with top := caller, outer := outer }
  else if st.top.esc ∧ type = TT_END_OF_LINE then
    .inl { st with top := { st.top with lineNumber := st.top.lineNumber + 1, esc := false } }
  else if type = TT_ESC then .inl { st with top := { st.top with esc := true } }
  else
    let lines :=
      if type = TT_STRING ∨ type = TT_POUND_DEFINE ∨ type = TT_COMMENT then newLines text else 0
    let st := { st with
      top := { st.top with lineNumber := st.top.lineNumber + lines, esc := false } }
    let pp := st.pp
    if type = TT_POUND_ELSE then .inl (st.withPp { pp with skipFlag := !pp.skipFlag })
    else if type = TT_POUND_ENDIF then .inl (st.withPp { pp with skipFlag := false })
    else if type = TT_COMMENT ∨ pp.skipFlag then .inl st
    else st.keep lib type text

def argTurn (name value : Bytes) (i : ℕ) (type : UInt8) (text : Bytes) (st : Reading) : ReadTurn :=
  if type = TT_NULL_TOKEN then .inr .ppError
  else if type = TT_CLOSE_PAREN then
    .inl ((st.enter (valueCall name value) (st.pp.put (macroArg 0) (decimal i))).go
      (.namesOpen name i))
  else if type = TT_COMMA then .inl st
  else .inl ((st.withPp (st.pp.put (macroArg (i + 1)) (cString text))).go (.args name value (i + 1)))

/-- The next name of an argument. With the `)`, the rest of the value is a text of its own. -/
def nameTurn (name : Bytes) (numArgs i : ℕ) (type : UInt8) (text : Bytes) (st : Reading) :
    ReadTurn :=
  if type = TT_NULL_TOKEN then .inr .ppError
  else if type = TT_CLOSE_PAREN then
    if i ≠ numArgs ∨ st.top.source = [] then .inr .ppError
    else .inl { st with
      at_ := .loop
      top := { st.top with text := st.top.source } }
  else if type = TT_COMMA then .inl st
  else
    let arg := (st.pp.macros (macroArg (i + 1))).getD []
    .inl ((st.withPp (st.pp.put (name ++ chr '-' :: cString text)
      ((st.pp.macros arg).getD arg))).go (.names name numArgs (i + 1)))

def lex (st : Reading) (k : UInt8 → Bytes → Reading → ReadTurn) : ReadTurn :=
  match getTokenText lib st.top.ppFlag st.top.source with
  | .ppError => .inr .ppError
  | .overrun => .inr .overrun
  | .token type text rest => k type text (st.moveTo rest)

def step (st : Reading) : ReadTurn :=
  match st.at_ with
  | .loop => st.lex lib (turn lib)
  | .argsOpen name value => st.lex lib fun type _ st =>
      if type = TT_OPEN_PAREN then .inl (st.go (.args name value 0)) else .inr .ppError
  | .args name value i => st.lex lib (argTurn name value i)
  | .namesOpen name numArgs => st.lex lib fun type _ st =>
      if type = TT_OPEN_PAREN then .inl (st.go (.names name numArgs 0)) else .inr .ppError
  | .names name numArgs i => st.lex lib (nameTurn name numArgs i)
  | .search file i =>
      match st.pp.macros (includeStr i) with
      | none => .inr .ppError
      | some path =>
          let name := path ++ chr '/' :: file
          match lib.files.lookup name with
          | some text => .inl (st.enterFile name text)
          | none => .inl (st.go (.search file (i + 2)))

def start (file text : Bytes) (ppFlag : Bool) (pp : PpState) : Reading :=
  ⟨.loop, ⟨⟨some file, [], ppFlag, 1, false, text⟩, text⟩, [], pp.saveLine file 1⟩

end

def next (lib : PpLibrary) (st : Reading) : Reading := (st.step lib).elim id fun _ => st

theorem step_next {lib : PpLibrary} {st : Reading} (h : (st.step lib).isLeft = true) :
    st.step lib = .inl (st.next lib) := by
  rw [next]
  cases hstep : st.step lib with
  | inl st => rfl
  | inr r =>
      rw [hstep] at h
      cases h

/-! ## What a token does -/

/-- A token of this type is not stored: a directive that says something else, or an identifier that
is replaced. -/
def Replaced (st : Reading) (type : UInt8) (text : Bytes) : Prop :=
  type = TT_POUND_INCLUDE ∨ type = TT_POUND_DEFINE ∨ type = TT_POUND_IFDEF ∨
    type = TT_IDENTIFIER ∧ (st.substitution text).isSome

def ifdefHolds (st : Reading) (text : Bytes) : Bool :=
  match parse (bufrtrim text) [] false false with
  | .token name _ _ => (st.pp.macros (cString name)).isSome
  | _ => false

inductive Kept (lib : PpLibrary) (type : UInt8) (text : Bytes) (st : Reading) : Reading → Prop
  | stored {bytes : Bytes} {lineNumber : ℕ} (h : ¬ st.Replaced type text) :
      Kept lib type text st { st with
        top := { st.top with lineNumber := lineNumber }
        pp := st.pp.save (type :: bytes) }
  | args {name value : Bytes} (htype : type = TT_IDENTIFIER)
      (h : st.substitution text = some (name, value)) :
      Kept lib type text st (st.go (.argsOpen name value))
  | value {name value : Bytes} (htype : type = TT_IDENTIFIER)
      (h : st.substitution text = some (name, value)) :
      Kept lib type text st (st.enter (valueCall st.top.macroName value) st.pp)
  | file {source : Bytes} (htype : type = TT_POUND_INCLUDE)
      (h : lib.files.lookup text = some source) :
      Kept lib type text st ((st.withPp (st.pp.save [TT_END_OF_LINE])).enterFile text source)
  | search (htype : type = TT_POUND_INCLUDE) :
      Kept lib type text st ((st.withPp (st.pp.save [TT_END_OF_LINE])).go (.search text 0))
  | define {name value : Bytes} (htype : type = TT_POUND_DEFINE)
      (hvalue : value.length ≤ text.length) :
      Kept lib type text st (st.withPp (st.pp.put name value))
  | ifdef (htype : type = TT_POUND_IFDEF) :
      Kept lib type text st (st.withPp { st.pp with skipFlag := !st.ifdefHolds text })

section

variable {lib : PpLibrary} {type : UInt8} {text : Bytes} {st st' : Reading}

theorem PpState.save_save (pp : PpState) (xs ys : Bytes) :
    (pp.save xs).save ys = pp.save (xs ++ ys) := by
  simp only [PpState.save, List.append_assoc]

theorem bufrtrim_length (text : Bytes) : (bufrtrim text).length ≤ text.length := by
  rw [bufrtrim, List.length_reverse]
  calc ((cString text).reverse.dropWhile (· = chr ' ')).length
      ≤ (cString text).reverse.length := List.length_dropWhile_le _ _
    _ = (cString text).length := List.length_reverse
    _ ≤ text.length := (List.takeWhile_prefix _).length_le

theorem keep_stored (lib : PpLibrary) (h : ¬ st.Replaced type text) :
    ∃ bytes lineNumber, st.keep lib type text = .inl { st with
      top := { st.top with lineNumber := lineNumber }
      pp := st.pp.save (type :: bytes) } := by
  have hidentifier : type = TT_IDENTIFIER → st.substitution text = none := by
    intro htype
    by_contra hsome
    exact h (.inr (.inr (.inr ⟨htype, Option.isSome_iff_ne_none.2 hsome⟩)))
  have hinclude : type ≠ TT_POUND_INCLUDE := fun htype => h (.inl htype)
  have hdefine : type ≠ TT_POUND_DEFINE := fun htype => h (.inr (.inl htype))
  have hifdef : type ≠ TT_POUND_IFDEF := fun htype => h (.inr (.inr (.inl htype)))
  rw [keep]
  by_cases hterminated : type = TT_NUMBER ∨ type = TT_CONSTANT ∨ type = TT_VARIABLE
  · rw [if_pos hterminated, PpState.save_save]
    exact ⟨_, st.top.lineNumber, rfl⟩
  rw [if_neg hterminated]
  by_cases htype : type = TT_IDENTIFIER
  · simp only [if_pos htype, hidentifier htype, PpState.save_save]
    exact ⟨_, st.top.lineNumber, rfl⟩
  rw [if_neg htype]
  by_cases hline : type = TT_END_OF_LINE
  · rw [if_pos hline]
    by_cases hsemicolon : text = cstr ";"
    · rw [if_pos hsemicolon]
      exact ⟨_, st.top.lineNumber, rfl⟩
    · rw [if_neg hsemicolon]
      simp only [PpState.saveLine, PpState.save_save]
      exact ⟨_, _, rfl⟩
  rw [if_neg hline]
  by_cases hstring : type = TT_STRING
  · rw [if_pos hstring, PpState.save_save, PpState.save_save]
    exact ⟨_, st.top.lineNumber, rfl⟩
  rw [if_neg hstring, if_neg hinclude, if_neg hdefine, if_neg hifdef]
  exact ⟨_, st.top.lineNumber, rfl⟩

theorem keep_cases (h : st.keep lib type text = .inl st') : Kept lib type text st st' := by
  by_cases hreplaced : st.Replaced type text
  · rcases hreplaced with htype | htype | htype | ⟨htype, hsome⟩
    · rw [keep, htype, if_neg (by decide), if_neg (by decide), if_neg (by decide),
        if_neg (by decide), if_pos rfl] at h
      dsimp only at h
      by_cases hnil : text = []
      · rw [if_pos hnil] at h
        cases h
      · rw [if_neg hnil] at h
        cases hfile : lib.files.lookup text with
        | some source =>
            rw [hfile] at h
            cases h
            exact .file htype hfile
        | none =>
            rw [hfile] at h
            cases h
            exact .search htype
    · rw [keep, htype, if_neg (by decide), if_neg (by decide), if_neg (by decide),
        if_neg (by decide), if_neg (by decide), if_pos rfl] at h
      dsimp only at h
      cases hparse : parse (bufrtrim text) [] false false with
      | ppError =>
          rw [hparse] at h
          cases h
      | overrun =>
          rw [hparse] at h
          cases h
      | token name parsed cnt =>
          simp only [hparse] at h
          cases hstored : st.pp.macros (cString name) with
          | some value =>
              rw [hstored] at h
              cases h
          | none =>
              rw [hstored] at h
              cases h
              refine .define htype ?_
              calc (((bufrtrim text).drop cnt).dropWhile (· = chr ' ')).length
                  ≤ ((bufrtrim text).drop cnt).length := List.length_dropWhile_le _ _
                _ ≤ (bufrtrim text).length := (List.drop_sublist _ _).length_le
                _ ≤ text.length := bufrtrim_length text
    · rw [keep, htype, if_neg (by decide), if_neg (by decide), if_neg (by decide),
        if_neg (by decide), if_neg (by decide), if_neg (by decide), if_pos rfl] at h
      cases hparse : parse (bufrtrim text) [] false false with
      | ppError =>
          rw [hparse] at h
          cases h
      | overrun =>
          rw [hparse] at h
          cases h
      | token name parsed cnt =>
          simp only [hparse] at h
          by_cases hname : name = []
          · rw [if_pos hname] at h
            cases h
          · rw [if_neg hname] at h
            have hflag : (st.pp.macros (cString name)).isNone = !st.ifdefHolds text := by
              rw [ifdefHolds, hparse, Option.not_isSome]
            rw [hflag] at h
            cases h
            exact .ifdef htype
    · obtain ⟨⟨name, value⟩, hsubstitution⟩ := Option.isSome_iff_exists.1 hsome
      rw [keep, if_neg (by rw [htype]; decide), if_pos htype, hsubstitution] at h
      dsimp only at h
      by_cases hnil : value = []
      · rw [if_pos hnil] at h
        cases h
      rw [if_neg hnil] at h
      by_cases hparen : firstByte value = chr '('
      · rw [if_pos hparen] at h
        cases h
        exact .args htype hsubstitution
      · rw [if_neg hparen] at h
        cases h
        exact .value htype hsubstitution
  · obtain ⟨bytes, lineNumber, hkeep⟩ := keep_stored lib hreplaced
    rw [hkeep] at h
    cases h
    exact .stored hreplaced

inductive Turned (lib : PpLibrary) (type : UInt8) (text : Bytes) (st : Reading) : Reading → Prop
  | returned {caller : ReadText} {outer : List ReadText} (htype : type = TT_NULL_TOKEN)
      (houter : st.outer = caller :: outer) :
      Turned lib type text st { st with top := caller, outer := outer }
  | passed {lineNumber : ℕ} {esc skipFlag : Bool} (htype : type ≠ TT_NULL_TOKEN) :
      Turned lib type text st { st with
        top := { st.top with lineNumber := lineNumber, esc := esc }
        pp := { st.pp with skipFlag := skipFlag } }
  | kept {lineNumber : ℕ} {st' : Reading} (htype : type ≠ TT_NULL_TOKEN)
      (h : Kept lib type text
        { st with top := { st.top with lineNumber := lineNumber, esc := false } } st') :
      Turned lib type text st st'

theorem turn_cases (h : turn lib type text st = .inl st') : Turned lib type text st st' := by
  rw [turn] at h
  by_cases hnull : type = TT_NULL_TOKEN
  · rw [if_pos hnull] at h
    cases houter : st.outer with
    | nil =>
        rw [houter] at h
        cases h
    | cons caller outer =>
        rw [houter] at h
        cases h
        exact .returned hnull houter
  rw [if_neg hnull] at h
  by_cases hescaped : st.top.esc ∧ type = TT_END_OF_LINE
  · rw [if_pos hescaped] at h
    cases h
    exact .passed hnull
  rw [if_neg hescaped] at h
  by_cases hesc : type = TT_ESC
  · rw [if_pos hesc] at h
    cases h
    exact .passed hnull
  rw [if_neg hesc] at h
  dsimp only at h
  by_cases helse : type = TT_POUND_ELSE
  · rw [if_pos helse] at h
    cases h
    exact .passed hnull
  rw [if_neg helse] at h
  by_cases hendif : type = TT_POUND_ENDIF
  · rw [if_pos hendif] at h
    cases h
    exact .passed hnull
  rw [if_neg hendif] at h
  by_cases hskip : type = TT_COMMENT ∨ st.pp.skipFlag = true
  · rw [if_pos hskip] at h
    cases h
    exact .passed hnull
  · rw [if_neg hskip] at h
    exact .kept hnull (keep_cases h)

/-- What a token does that is looked for by the loops over the arguments of a macro. -/
theorem lex_cases {k : UInt8 → Bytes → Reading → ReadTurn} (h : st.lex lib k = .inl st') :
    ∃ type text rest, getTokenText lib st.top.ppFlag st.top.source = .token type text rest ∧
      k type text (st.moveTo rest) = .inl st' := by
  rw [lex] at h
  cases htoken : getTokenText lib st.top.ppFlag st.top.source with
  | ppError =>
      rw [htoken] at h
      cases h
  | overrun =>
      rw [htoken] at h
      cases h
  | token type text rest =>
      rw [htoken] at h
      exact ⟨type, text, rest, rfl, h⟩

theorem argTurn_cases {name value : Bytes} {i : ℕ}
    (h : argTurn name value i type text st = .inl st') :
    type ≠ TT_NULL_TOKEN ∧
      (st' = (st.enter (valueCall name value) (st.pp.put (macroArg 0) (decimal i))).go
          (.namesOpen name i) ∨
        st' = st ∨
        st' = (st.withPp (st.pp.put (macroArg (i + 1)) (cString text))).go
          (.args name value (i + 1))) := by
  rw [argTurn] at h
  by_cases hnull : type = TT_NULL_TOKEN
  · rw [if_pos hnull] at h
    cases h
  rw [if_neg hnull] at h
  refine ⟨hnull, ?_⟩
  by_cases hclose : type = TT_CLOSE_PAREN
  · rw [if_pos hclose] at h
    exact .inl (Sum.inl.inj h).symm
  rw [if_neg hclose] at h
  by_cases hcomma : type = TT_COMMA
  · rw [if_pos hcomma] at h
    exact .inr (.inl (Sum.inl.inj h).symm)
  · rw [if_neg hcomma] at h
    exact .inr (.inr (Sum.inl.inj h).symm)

theorem nameTurn_cases {name : Bytes} {numArgs i : ℕ}
    (h : nameTurn name numArgs i type text st = .inl st') :
    type ≠ TT_NULL_TOKEN ∧
      (st' = { st with at_ := .loop, top := { st.top with text := st.top.source } } ∨
        st' = st ∨
        ∃ arg, st' = (st.withPp (st.pp.put (name ++ chr '-' :: cString text)
          ((st.pp.macros arg).getD arg))).go (.names name numArgs (i + 1)) ∧
          arg = (st.pp.macros (macroArg (i + 1))).getD []) := by
  rw [nameTurn] at h
  by_cases hnull : type = TT_NULL_TOKEN
  · rw [if_pos hnull] at h
    cases h
  rw [if_neg hnull] at h
  refine ⟨hnull, ?_⟩
  by_cases hclose : type = TT_CLOSE_PAREN
  · rw [if_pos hclose] at h
    by_cases hbad : i ≠ numArgs ∨ st.top.source = []
    · rw [if_pos hbad] at h
      cases h
    · rw [if_neg hbad] at h
      exact .inl (Sum.inl.inj h).symm
  rw [if_neg hclose] at h
  by_cases hcomma : type = TT_COMMA
  · rw [if_pos hcomma] at h
    exact .inr (.inl (Sum.inl.inj h).symm)
  · rw [if_neg hcomma] at h
    exact .inr (.inr ⟨_, (Sum.inl.inj h).symm, rfl⟩)

end

end Reading

end ScOpen
