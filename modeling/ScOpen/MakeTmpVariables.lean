import ScOpen.ParseLengths
import ScOpen.TmpValues

/-!
# Arguments in a message

`make_tmp_variables()` makes the temporary variables of a message: a token in front of a `=` is the
name of a variable, and every other token is an argument, which is numbered. Whether a token is a
`=` is asked of its text only, so that a string can be one.
-/

namespace ScOpen

/-! ## The loop -/

def argName (argNum : ℕ) : Bytes := cstr "ARG" ++ decimal argNum

section

variable (lib : TmpLibrary) (memory : ℕ → ℕ → UInt8) (noParse : Bytes)

/-- The loop of `make_tmp_variables()`; there is no table where `parse()` has no result. What lies
behind the copy of a value is given for each place in the text. -/
def makeTmpLoop : ℕ → Bytes → ℕ → TmpTable → Option TmpTable
  | 0, _, _, _ => none
  | n + 1, buf, argNum, t =>
      match parse buf noParse false false with
      | .token token type len =>
          let buf := buf.drop len
          let behind := memory buf.length
          if type = .null ∨ type = .endOfLine then
            some (tmpVariablePut lib behind t (cstr "NUM_ARG") (decimal argNum)
              (decimal argNum).length)
          else
            let x := cString token
            match parse buf noParse false false with
            | .token token _ len =>
                if cString token = cstr "=" then
                  let buf := buf.drop len
                  match parse buf noParse false false with
                  | .token token _ len =>
                      makeTmpLoop n (buf.drop len) argNum
                        (tmpVariablePut lib behind t x token token.length)
                  | _ => none
                else
                  makeTmpLoop n buf (argNum + 1)
                    (tmpVariablePut lib behind t (argName argNum) x x.length)
            | _ => none
      | _ => none

def makeTmpVariables (buffer : Bytes) (t : TmpTable) : Option TmpTable :=
  let t := tmpVariablePut lib (memory (buffer.length + 1)) (tmpVariableDeleteAll t) (cstr "ARGS")
    buffer (cString buffer).length
  makeTmpLoop lib memory noParse (buffer.length + 1) buffer 0 t

end

/-! ## The tokens of a text -/

def IsBlank (c : UInt8) : Prop := c = chr ' ' ∨ c = 9

instance (c : UInt8) : Decidable (IsBlank c) := inferInstanceAs (Decidable (_ ∨ _))

structure Separating (noParse : Bytes) : Prop where
  blank : ∀ c ∈ noParse, ¬IsBlank c
  equals : chr '=' ∉ noParse

inductive TokenTexts (noParse : Bytes) : Bytes → List Bytes → Prop where
  | nil {buf : Bytes} (h : ∀ c ∈ buf, IsBlank c) : TokenTexts noParse buf []
  | cons {buf rest token : Bytes} {tokens : List Bytes} {type : ParseType} {cnt : ℕ}
      (hparse : parse buf noParse false false = .token token type cnt) (hrest : buf.drop cnt = rest)
      (htype : type ≠ .null ∧ type ≠ .endOfLine) (hzero : 0 ∉ token)
      (h : TokenTexts noParse rest tokens) : TokenTexts noParse buf (token :: tokens)

section

variable {noParse : Bytes}

theorem parseBranch_blank (h : Separating noParse) {c : UInt8} (hc : IsBlank c) (buf : Bytes) :
    parseBranch noParse false false c buf = .other := by
  have hno : c ∉ noParse := fun hmem => h.blank c hmem hc
  have hend : c ∉ cstr "\n\r;" ∧ c ∉ cstr "(),$-+/*&|^:.~" ∧ c ∉ cstr "<>=!" ∧ ¬IsDigit c ∧
      isNameChar c = false ∧ c ≠ chr '"' ∧ c ≠ chr '\'' ∧ c ≠ chr '\\' := by
    rcases hc with rfl | rfl <;> decide
  obtain ⟨h1, h2, h3, h4, h5, h6, h7, h8⟩ := hend
  simp only [parseBranch, hno, h1, h2, h3, h4, h5, h6, h7, h8, Bool.false_and, Bool.false_eq_true,
    and_false, or_self, if_false]

theorem parseBranch_equals (h : Separating noParse) (buf : Bytes) :
    parseBranch noParse false false (chr '=') buf = .comparison := by
  have hchr : ¬IsDigit (chr '=') ∧ isNameChar (chr '=') = false ∧ chr '=' ≠ chr '"' ∧
      chr '=' ≠ chr '\'' ∧ chr '=' ∈ cstr "<>=!" := by decide
  obtain ⟨h1, h2, h3, h4, h5⟩ := hchr
  simp only [parseBranch, h.equals, h1, h2, h3, h4, h5, Bool.false_and, Bool.false_eq_true,
    and_false, or_self, if_false, if_true]

theorem parseBranch_quote (buf : Bytes) :
    parseBranch noParse false false (chr '"') buf = .string := by
  have hchr : ¬IsDigit (chr '"') ∧ isNameChar (chr '"') = false := by decide
  simp only [parseBranch, hchr.1, hchr.2, Bool.false_eq_true, if_false, if_true]

theorem parseBranch_digit {c : UInt8} (hc : IsDigit c) (buf : Bytes) :
    parseBranch noParse false false c buf = .number := if_pos hc

theorem parseBranch_nameChar {c : UInt8} (hdigit : ¬IsDigit c) (hc : isNameChar c = true)
    (buf : Bytes) : parseBranch noParse false false c buf = .name := by
  rw [parseBranch, if_neg hdigit, if_pos hc]

/-- Blanks in front of a token are passed over. -/
theorem parseRun_blanks (h : Separating noParse) {blanks buf : Bytes}
    (hb : ∀ c ∈ blanks, IsBlank c) (n cnt : ℕ) (type : ParseType) :
    parseRun noParse false false (n + blanks.length) ⟨[], type, blanks ++ buf, cnt⟩ =
      parseRun noParse false false n ⟨[], type, buf, cnt + blanks.length⟩ := by
  induction blanks generalizing cnt with
  | nil => rfl
  | cons c blanks ih =>
      have hc := parseBranch_blank h (hb c List.mem_cons_self) (blanks ++ buf)
      rw [List.length_cons, ← Nat.add_assoc, List.cons_append, parseRun]
      simp only [hc, if_true]
      rw [ih (fun d hd => hb d (List.mem_cons_of_mem _ hd))]
      congr 2
      omega

/-- The characters of a name that follow a number belong to the number or are left over. -/
theorem numberLoop_name (h : Separating noParse) {w : Bytes} (rest : Bytes)
    (hw : ∀ c ∈ w, isNameChar c = true) (token : Bytes) (cnt : ℕ) :
    ∃ w₁ w₂, w = w₁ ++ w₂ ∧ numberLoop noParse token (w ++ chr '=' :: rest) cnt =
      ⟨token ++ w₁, .number, w₂ ++ chr '=' :: rest, cnt + w₁.length⟩ := by
  have hequals : ¬(IsDigit (chr '=') ∨ chr '=' = chr '.') ∧
      ¬(chr '=' = chr 'e' ∨ chr '=' = chr 'E') := by decide
  induction w generalizing token cnt with
  | nil =>
      refine ⟨[], [], rfl, ?_⟩
      rw [List.append_nil, List.nil_append, List.length_nil, Nat.add_zero]
      cases rest with
      | nil => rw [numberLoop, if_neg fun he => (or_assoc.2 he).elim hequals.1 h.equals]
      | cons d rest =>
          rw [numberLoop, if_neg hequals.1, if_neg fun he => hequals.2 he.1, if_neg h.equals]
  | cons c w ih =>
      obtain ⟨d, tail, htail, hsign⟩ : ∃ d tail, w ++ chr '=' :: rest = d :: tail ∧
          ¬(d = chr '+' ∨ d = chr '-') := by
        cases w with
        | nil => exact ⟨_, _, rfl, by decide⟩
        | cons d w =>
            refine ⟨d, _, rfl, ?_⟩
            have hd := hw d (List.mem_cons_of_mem _ List.mem_cons_self)
            rintro (rfl | rfl)
            · exact absurd hd (by decide)
            · exact absurd hd (by decide)
      have htaken : ∃ w₁ w₂, c :: w = w₁ ++ w₂ ∧
          numberLoop noParse (token ++ [c]) (w ++ chr '=' :: rest) (cnt + 1) =
            ⟨token ++ w₁, .number, w₂ ++ chr '=' :: rest, cnt + w₁.length⟩ := by
        obtain ⟨w₁, w₂, rfl, hloop⟩ :=
          ih (fun e he => hw e (List.mem_cons_of_mem _ he)) (token ++ [c]) (cnt + 1)
        refine ⟨c :: w₁, w₂, rfl, ?_⟩
        rw [hloop, List.append_assoc, List.length_cons, Nat.add_right_comm, Nat.add_assoc]
        rfl
      rw [List.cons_append, htail, numberLoop, ← htail]
      split_ifs with hdigit hexp hno
      · exact htaken
      · exact absurd hexp.2 hsign
      · exact htaken
      · refine ⟨[], c :: w, rfl, ?_⟩
        rw [List.append_nil, List.length_nil, Nat.add_zero]
        rfl

/-- A name is read up to its end, whatever it starts with. -/
theorem nameLoop_name {w rest : Bytes} (hw : ∀ c ∈ w, isNameChar c = true) (token : Bytes)
    (cnt : ℕ) : nameLoop token (w ++ chr '=' :: rest) cnt =
      ⟨token ++ w, .name, chr '=' :: rest, cnt + w.length⟩ := by
  induction w generalizing token cnt with
  | nil =>
      rw [List.nil_append, nameLoop, if_neg (by decide), List.append_nil]
      rfl
  | cons c w ih =>
      rw [List.cons_append, nameLoop, if_pos (hw c List.mem_cons_self),
        ih (fun d hd => hw d (List.mem_cons_of_mem _ hd)), List.append_assoc, List.length_cons,
        Nat.add_right_comm, Nat.add_assoc]
      rfl

/-- The loop stops at a `=` behind a name. -/
theorem parseRun_name (h : Separating noParse) {w : Bytes} (rest : Bytes)
    (hw : ∀ c ∈ w, isNameChar c = true) {n : ℕ} (hn : w.length ≤ n) (token : Bytes)
    (type : ParseType) (cnt : ℕ) :
    ∃ type', parseRun noParse false false n ⟨token, type, w ++ chr '=' :: rest, cnt⟩ =
        ⟨token ++ w, type', chr '=' :: rest, cnt + w.length⟩ ∧
      (w = [] ∧ type' = type ∨ type' = .number ∨ type' = .name) := by
  have hstop : ∀ m token type cnt, parseRun noParse false false m
      ⟨token, type, chr '=' :: rest, cnt⟩ = ⟨token, type, chr '=' :: rest, cnt⟩ := by
    intro m token type cnt
    cases m with
    | zero => rfl
    | succ m =>
        rw [parseRun]
        simp only [parseBranch_equals h]
  induction n generalizing w token type cnt with
  | zero =>
      obtain rfl := List.length_eq_zero_iff.1 (Nat.le_zero.1 hn)
      exact ⟨type, by simpa using hstop 0 token type cnt, .inl ⟨rfl, rfl⟩⟩
  | succ n ih =>
      cases w with
      | nil => exact ⟨type, by simpa using hstop (n + 1) token type cnt, .inl ⟨rfl, rfl⟩⟩
      | cons c w =>
          rw [List.cons_append, parseRun]
          have hw' : ∀ d ∈ w, isNameChar d = true := fun d hd => hw d (List.mem_cons_of_mem _ hd)
          by_cases hdigit : IsDigit c
          · simp only [parseBranch_digit hdigit]
            obtain ⟨w₁, w₂, rfl, hloop⟩ := numberLoop_name h rest hw' (token ++ [c])
              (cnt + 1)
            rw [hloop]
            have hlen : w₂.length ≤ n := by
              simp only [List.length_cons, List.length_append] at hn
              omega
            obtain ⟨type', hrun, htype⟩ := ih (fun d hd => hw' d (List.mem_append_right _ hd)) hlen
              (token ++ [c] ++ w₁) .number (cnt + 1 + w₁.length)
            refine ⟨type', ?_, .inr ?_⟩
            · rw [hrun]
              simp only [List.append_assoc, List.cons_append, List.nil_append, List.length_cons,
                List.length_append]
              congr 1
              omega
            · rcases htype with ⟨-, rfl⟩ | htype
              · exact .inl rfl
              · exact htype
          · simp only [parseBranch_nameChar hdigit (hw c List.mem_cons_self)]
            rw [nameLoop_name hw', hstop]
            refine ⟨.name, ?_, .inr (.inr rfl)⟩
            simp only [List.append_assoc, List.cons_append, List.nil_append, List.length_cons]
            congr 1
            omega

/-! ## The next token -/

structure Quoted where
  text : Bytes
  all : ∀ c ∈ text, c ≠ chr '"' ∧ c ≠ chr '\\' ∧ c ≠ chr '\n' ∧ c ≠ 0

theorem stringLoop_quoted (s : Quoted) (rest token : Bytes) (cnt : ℕ) :
    stringLoop token (s.text ++ chr '"' :: rest) cnt =
      .token (token ++ s.text) .string (cnt + s.text.length + 1) := by
  obtain ⟨text, hall⟩ := s
  dsimp only
  induction text generalizing token cnt with
  | nil =>
      rw [List.nil_append, stringLoop.eq_def]
      simp
  | cons c text ih =>
      obtain ⟨hquote, hback, hline, -⟩ := hall c List.mem_cons_self
      rw [List.cons_append, stringLoop.eq_def]
      simp only [if_neg hquote, if_neg hback, if_neg hline]
      rw [ih _ _ fun d hd => hall d (List.mem_cons_of_mem _ hd), List.append_assoc]
      simp only [List.cons_append, List.nil_append, List.length_cons]
      congr 1
      omega

/-- What `parse()` does behind the blanks in front of a token. -/
theorem parse_blanks (h : Separating noParse) {blanks : Bytes} (hb : ∀ c ∈ blanks, IsBlank c)
    (buf : Bytes) :
    parse (blanks ++ buf) noParse false false =
      parseEnd noParse false false (parseRun noParse false false buf.length
        ⟨[], .null, buf, blanks.length⟩) := by
  rw [parse, List.length_append, Nat.add_comm, parseRun_blanks h hb, Nat.zero_add]

theorem parse_end (h : Separating noParse) {blanks : Bytes} (hb : ∀ c ∈ blanks, IsBlank c) :
    parse blanks noParse false false = .token [] .null blanks.length := by
  have hparse := parse_blanks h hb []
  rwa [List.append_nil] at hparse

theorem parse_string (h : Separating noParse) {blanks : Bytes} (hb : ∀ c ∈ blanks, IsBlank c)
    (s : Quoted) (rest : Bytes) :
    parse (blanks ++ chr '"' :: (s.text ++ chr '"' :: rest)) noParse false false =
      .token s.text .string (blanks.length + s.text.length + 2) := by
  rw [parse_blanks h hb, List.length_cons, parseRun]
  simp only [parseBranch_quote]
  rw [parseEnd]
  simp only [parseBranch_quote, stringLoop_quoted, List.nil_append]
  congr 1
  omega

theorem parse_name (h : Separating noParse) {blanks w : Bytes} (hb : ∀ c ∈ blanks, IsBlank c)
    (hw : ∀ c ∈ w, isNameChar c = true) (hne : w ≠ []) (rest : Bytes) :
    ∃ type, parse (blanks ++ (w ++ chr '=' :: rest)) noParse false false =
        .token w type (blanks.length + w.length) ∧ (type = .number ∨ type = .name) := by
  have hlen : w.length ≤ (w ++ chr '=' :: rest).length := by
    rw [List.length_append]
    exact Nat.le_add_right _ _
  obtain ⟨type, hrun, htype⟩ := parseRun_name h rest hw hlen [] .null blanks.length
  refine ⟨type, ?_, htype.resolve_left fun hnil => hne hnil.1⟩
  rw [parse_blanks h hb, hrun, parseEnd]
  simp only [parseBranch_equals h, List.nil_append]
  rw [if_pos hne]

theorem parse_equals (h : Separating noParse) {rest : Bytes} (hrest : firstByte rest ≠ chr '=') :
    parse (chr '=' :: rest) noParse false false = .token [chr '='] .other 1 := by
  rw [parse, List.length_cons, parseRun]
  simp only [parseBranch_equals h]
  rw [parseEnd]
  simp only [parseBranch_equals h, if_neg hrest]
  rfl

/-! ## Arguments -/

def FreeName (name : Bytes) : Prop :=
  name ≠ cstr "ARGS" ∧ name ≠ cstr "NUM_ARG" ∧ ∀ n, name ≠ argName n

structure ArgumentName where
  text : Bytes
  ne_nil : text ≠ []
  all : ∀ c ∈ text, isNameChar c = true
  free : FreeName text

inductive TextArgument where
  | bare (s : Quoted)
  | assigned (name : ArgumentName) (value : Quoted)

def Quoted.written (s : Quoted) (rest : Bytes) : Bytes := chr '"' :: (s.text ++ chr '"' :: rest)

def TextArgument.written (rest : Bytes) : TextArgument → Bytes
  | .bare s => s.written rest
  | .assigned name value => name.text ++ chr '=' :: value.written rest

def TextArgument.tokens : TextArgument → List Bytes
  | .bare s => [s.text]
  | .assigned name value => [name.text, cstr "=", value.text]

def TextArgument.name? : TextArgument → Option Bytes
  | .bare _ => none
  | .assigned name _ => some name.text

structure ArgumentList where
  args : List (Bytes × TextArgument)
  trailing : Bytes
  args_blank : ∀ a ∈ args, ∀ c ∈ a.1, IsBlank c
  trailing_blank : ∀ c ∈ trailing, IsBlank c
  distinct : (args.filterMap fun a => a.2.name?).Nodup

def writtenArguments (args : List (Bytes × TextArgument)) (trailing : Bytes) : Bytes :=
  args.foldr (fun a rest => a.1 ++ a.2.written rest) trailing

def ArgumentList.text (l : ArgumentList) : Bytes := writtenArguments l.args l.trailing

def ArgumentList.arguments (l : ArgumentList) : List TextArgument := l.args.map (·.2)

theorem Quoted.zero_notMem (s : Quoted) : 0 ∉ s.text := fun h => (s.all 0 h).2.2.2 rfl

theorem ArgumentName.zero_notMem (name : ArgumentName) : 0 ∉ name.text :=
  fun h => absurd (name.all 0 h) (by decide)

theorem Quoted.tokenTexts (h : Separating noParse) (s : Quoted) {blanks rest : Bytes}
    (hb : ∀ c ∈ blanks, IsBlank c) {tokens : List Bytes} (hrest : TokenTexts noParse rest tokens) :
    TokenTexts noParse (blanks ++ s.written rest) (s.text :: tokens) := by
  refine .cons (parse_string h hb s rest) ?_ ⟨by decide, by decide⟩ s.zero_notMem hrest
  have hsplit : blanks ++ s.written rest =
      (blanks ++ chr '"' :: (s.text ++ [chr '"'])) ++ rest := by
    simp [Quoted.written]
  rw [hsplit]
  refine List.drop_left' ?_
  simp only [List.length_append, List.length_cons, List.length_nil]
  omega

theorem TextArgument.tokenTexts (h : Separating noParse) (a : TextArgument) {blanks rest : Bytes}
    (hb : ∀ c ∈ blanks, IsBlank c) {tokens : List Bytes} (hrest : TokenTexts noParse rest tokens) :
    TokenTexts noParse (blanks ++ a.written rest) (a.tokens ++ tokens) := by
  cases a with
  | bare s => exact s.tokenTexts h hb hrest
  | assigned name value =>
      have hnone : ∀ c ∈ [], IsBlank c := fun c hc => by cases hc
      have hvalue : TokenTexts noParse ([] ++ value.written rest) (value.text :: tokens) :=
        value.tokenTexts h hnone hrest
      have hequals : TokenTexts noParse (chr '=' :: value.written rest)
          (cstr "=" :: value.text :: tokens) :=
        .cons (parse_equals h (show chr '"' ≠ chr '=' by decide)) rfl ⟨by decide, by decide⟩
          (by decide) hvalue
      obtain ⟨type, hparse, htype⟩ :=
        parse_name h hb name.all name.ne_nil (value.written rest)
      refine .cons hparse ?_ ?_ name.zero_notMem hequals
      · rw [TextArgument.written, ← List.append_assoc]
        exact List.drop_left' List.length_append
      · rcases htype with rfl | rfl <;> decide

/-- The tokens of a text of arguments. -/
theorem ArgumentList.tokenTexts (h : Separating noParse) (l : ArgumentList) :
    TokenTexts noParse l.text (l.arguments.flatMap TextArgument.tokens) := by
  obtain ⟨args, trailing, hargs, htrailing, hdistinct⟩ := l
  simp only [ArgumentList.text, ArgumentList.arguments, writtenArguments]
  clear hdistinct
  induction args with
  | nil => exact .nil htrailing
  | cons a args ih =>
      exact a.2.tokenTexts h (hargs a List.mem_cons_self)
        (ih fun b hb => hargs b (List.mem_cons_of_mem _ hb))

end

end ScOpen
