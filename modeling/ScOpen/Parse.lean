import ScOpen.NumberText

/-!
# The lexer

`parse()` takes the next token of a text. Its loop goes on over blanks in front of the token, over
names, numbers and the characters that are not to be parsed, and every other branch ends it. The
text is what lies in front of the terminator; a branch that reads or passes what is behind it has no
result here.
-/

namespace ScOpen

inductive ParseType where
  | other
  | number
  | null
  | endOfLine
  | name
  | string
  | constant
  | poundInclude
  | poundIfdef
  | poundElse
  | poundEndif
  | poundDefine
  | comment
  deriving DecidableEq

/-- A call of `parse()`: it returns a token, its type and a count, `PP_ERROR` ends the process, or
it leaves the text. -/
inductive Parsed where
  | token (token : Bytes) (type : ParseType) (cnt : ℕ)
  | ppError
  | overrun

def isAlpha (c : UInt8) : Bool := 65 ≤ c ∧ c ≤ 90 ∨ 97 ≤ c ∧ c ≤ 122

def isAlnum (c : UInt8) : Bool := isAlpha c || decide (IsDigit c)

def isNameChar (c : UInt8) : Bool := isAlnum c || decide (c ∈ cstr "$_.{}[]")

def xdigitValue? (c : UInt8) : Option ℕ :=
  if IsDigit c then some (digitValue c)
  else if 65 ≤ c ∧ c ≤ 70 then some (c.toNat - 55)
  else if 97 ≤ c ∧ c ≤ 102 then some (c.toNat - 87)
  else none

def scanHexChar (buf : Bytes) : UInt8 :=
  let buf := buf.dropWhile fun c => decide (c = 32 ∨ 9 ≤ c ∧ c ≤ 13)
  match xdigitValue? (firstByte buf) with
  | some a => UInt8.ofNat ((xdigitValue? (firstByte buf.tail)).elim a fun b => 16 * a + b)
  | none =>
      let a := (xdigitValue? (firstByte buf.tail)).getD 0
      if firstByte buf = chr '+' then UInt8.ofNat a
      else if firstByte buf = chr '-' then 0 - UInt8.ofNat a else 0

/-! ## The branches that go on -/

structure ParseState where
  token : Bytes
  type : ParseType
  buf : Bytes
  cnt : ℕ

def numberLoop (noParse : Bytes) : Bytes → Bytes → ℕ → ParseState
  | token, c :: d :: buf, cnt =>
      if IsDigit c ∨ c = chr '.' then numberLoop noParse (token ++ [c]) (d :: buf) (cnt + 1)
      else if (c = chr 'e' ∨ c = chr 'E') ∧ (d = chr '+' ∨ d = chr '-') then
        numberLoop noParse (token ++ [c, d]) buf (cnt + 2)
      else if c ∈ noParse then numberLoop noParse (token ++ [c]) (d :: buf) (cnt + 1)
      else ⟨token, .number, c :: d :: buf, cnt⟩
  | token, [c], cnt =>
      if IsDigit c ∨ c = chr '.' ∨ c ∈ noParse then ⟨token ++ [c], .number, [], cnt + 1⟩
      else ⟨token, .number, [c], cnt⟩
  | token, [], cnt => ⟨token, .number, [], cnt⟩

def nameLoop : Bytes → Bytes → ℕ → ParseState
  | token, c :: buf, cnt =>
      if isNameChar c = true then nameLoop (token ++ [c]) buf (cnt + 1)
      else ⟨token, .name, c :: buf, cnt⟩
  | token, [], cnt => ⟨token, .name, [], cnt⟩

inductive ParseBranch where
  | number
  | name
  | string
  | constant
  | noParse
  | poundInclude
  | poundDefine
  | poundIfdef
  | poundElse
  | poundEndif
  | lineComment
  | comment
  | comparison
  | punctuation
  | backslash
  | endOfLine
  | other
  deriving DecidableEq

/-- The branch that is taken at a character `c` with `buf` behind it. -/
def parseBranch (noParse : Bytes) (commentFlag ppFlag : Bool) (c : UInt8) (buf : Bytes) :
    ParseBranch :=
  let pound (text : String) : Bool := ppFlag && (cstr text).isPrefixOf (c :: buf)
  if IsDigit c then .number
  else if isNameChar c = true then .name
  else if c = chr '"' then .string
  else if c = chr '\'' then .constant
  else if c ∈ noParse then .noParse
  else if pound "#include " = true then .poundInclude
  else if pound "#define " = true then .poundDefine
  else if pound "#ifdef " = true then .poundIfdef
  else if pound "#else\n" = true ∨ pound "#else " = true then .poundElse
  else if pound "#endif\n" = true ∨ pound "#endif " = true then .poundEndif
  else if c = chr '#' ∧ commentFlag = true then .lineComment
  else if c = chr '/' ∧ firstByte buf = chr '/' ∧ commentFlag = true then .lineComment
  else if c = chr '/' ∧ firstByte buf = chr '*' ∧ commentFlag = true then .comment
  else if c ∈ cstr "<>=!" then .comparison
  else if c ∈ cstr "(),$-+/*&|^:.~" then .punctuation
  else if c = chr '\\' then .backslash
  else if c ∈ cstr "\n\r;" then .endOfLine
  else .other

section

variable (noParse : Bytes) (commentFlag ppFlag : Bool)

/-- The loop, up to the end of the text or to the branch that ends it. Each turn takes a character
at least, so that there are enough of them. -/
def parseRun : ℕ → ParseState → ParseState
  | 0, s => s
  | n + 1, s =>
      match s.buf with
      | [] => s
      | c :: buf =>
          match parseBranch noParse commentFlag ppFlag c buf with
          | .number => parseRun n (numberLoop noParse (s.token ++ [c]) buf (s.cnt + 1))
          | .name => parseRun n (nameLoop (s.token ++ [c]) buf (s.cnt + 1))
          | .noParse => parseRun n ⟨s.token ++ [c], .other, buf, s.cnt + 1⟩
          | .other => if s.token = [] then parseRun n { s with buf := buf, cnt := s.cnt + 1 } else s
          | _ => s

end

/-! ## The branches that end the loop -/

def stringLoop : Bytes → Bytes → ℕ → Parsed
  | token, [], cnt => .token token .string cnt
  | token, c :: buf, cnt =>
      if c = chr '"' then .token token .string (cnt + 1)
      else if c = chr '\\' then
        match buf with
        | [] => .overrun
        | d :: buf =>
            if d = chr 'n' then stringLoop (token ++ cstr "\\n") buf (cnt + 2)
            else if d = chr 'r' then stringLoop (token ++ cstr "\\r") buf (cnt + 2)
            else if d = chr 'x' then
              match buf with
              | a :: b :: buf =>
                  stringLoop (token ++ [scanHexChar (a :: b :: buf)]) buf (cnt + 4)
              | _ => .overrun
            else stringLoop (token ++ [d]) buf (cnt + 2)
      else if c = chr '\n' then .ppError
      else stringLoop (token ++ [c]) buf (cnt + 1)

def constantLoop : Bytes → Bytes → ℕ → Parsed
  | token, [], cnt => .token token .constant cnt
  | token, c :: buf, cnt =>
      if c = chr '\'' then .token token .constant (cnt + 1)
      else if c = chr '\\' then
        match buf with
        | [] => .overrun
        | d :: buf => constantLoop (token ++ [c, d]) buf (cnt + 2)
      else if firstByte buf = chr '\n' then .ppError
      else constantLoop (token ++ [c]) buf (cnt + 1)

def defineLoop : Bytes → Bytes → ℕ → Parsed
  | _, [], _ => .overrun
  | token, c :: buf, cnt =>
      if c = chr '\n' then .token token .poundDefine cnt
      else if c = chr '\\' then
        match buf with
        | [] => .overrun
        | d :: buf => defineLoop (token ++ [c, d]) buf (cnt + 2)
      else defineLoop (token ++ [c]) buf (cnt + 1)

def commentLoop : Bytes → Bytes → ℕ → Parsed
  | _, [], _ => .overrun
  | token, c :: buf, cnt =>
      if c = chr '/' ∧ firstByte buf = chr '*' then .ppError
      else if c = chr '*' ∧ firstByte buf = chr '/' then
        .token (token ++ [chr '*', chr '/']) .comment (cnt + 2)
      else commentLoop (token ++ [c]) buf (cnt + 1)

def directiveData (buf : Bytes) : Bytes :=
  (buf.dropWhile (· ≠ chr ' ')).dropWhile (· = chr ' ')

/-- The word behind `#include` or `#ifdef`, without the characters that are ignored. The rest of
the line is passed over. -/
def directiveWord (ignored : Bytes) (type : ParseType) (token buf : Bytes) (cnt : ℕ) : Parsed :=
  let data := directiveData buf
  if chr '\n' ∈ data then
    let word := data.takeWhile fun c => decide (c ≠ chr '\n' ∧ c ≠ chr ' ')
    .token (token ++ word.filter fun c => decide (c ∉ ignored)) type
      (cnt + (buf.length - (data.dropWhile (· ≠ chr '\n')).length))
  else .overrun

/-- The rest of a line and its end. -/
def skipLine (token : Bytes) : Bytes → ℕ → Parsed
  | [], cnt => .token token .endOfLine cnt
  | c :: buf, cnt =>
      if c = chr '\n' then .token token .endOfLine (cnt + 1) else skipLine token buf (cnt + 1)

def isHexDigit (c : UInt8) : Bool := (xdigitValue? c).isSome

def parseBackslash (token : Bytes) (cnt : ℕ) : Bytes → Parsed
  | [] => .overrun
  | d :: buf =>
      let token := token ++ [chr '\\']
      if d = chr 'n' ∨ d = chr 'r' then .token (token ++ [d]) .other (cnt + 2)
      else if d = chr 'x' then
        let token := token ++ [d]
        if isHexDigit (firstByte buf) = true then
          if isHexDigit (firstByte buf.tail) = true then
            .token (token ++ [firstByte buf, firstByte buf.tail]) .other (cnt + 4)
          else .token (token ++ [chr '0', firstByte buf.tail]) .other (cnt + 2)
        else .token token .other (cnt + 1)
      else .token token .other (cnt + 1)

def parseEnd (noParse : Bytes) (commentFlag ppFlag : Bool) (s : ParseState) : Parsed :=
  let result : Parsed := .token s.token s.type s.cnt
  match s.buf with
  | [] => result
  | c :: buf =>
      match parseBranch noParse commentFlag ppFlag c buf with
      | .string => stringLoop s.token buf (s.cnt + 1)
      | .constant => constantLoop s.token buf (s.cnt + 1)
      | .poundInclude => directiveWord (cstr "<>\"") .poundInclude s.token (c :: buf) s.cnt
      | .poundDefine =>
          let data := directiveData (c :: buf)
          defineLoop s.token data (s.cnt + ((c :: buf).length - data.length))
      | .poundIfdef => directiveWord [] .poundIfdef s.token (c :: buf) s.cnt
      | .poundElse => .token s.token .poundElse (s.cnt + 5)
      | .poundEndif => .token s.token .poundEndif (s.cnt + 6)
      | .lineComment => skipLine s.token buf (s.cnt + 1)
      | .comment => commentLoop (s.token ++ [chr '/', chr '*']) buf.tail (s.cnt + 2)
      | .comparison =>
          if s.token ≠ [] then result
          else if firstByte buf = chr '=' then .token [c, chr '='] .other (s.cnt + 2)
          else .token [c] .other (s.cnt + 1)
      | .punctuation => if s.token ≠ [] then result else .token [c] .other (s.cnt + 1)
      | .backslash => if s.token ≠ [] then result else parseBackslash s.token s.cnt buf
      | .endOfLine =>
          if s.token ≠ [] then result
          else if c = chr '\r' ∧ firstByte buf = chr '\n' then
            .token [chr '\n'] .endOfLine (s.cnt + 1)
          else if c = chr '\n' ∨ c = chr ';' then .token [c] .endOfLine (s.cnt + 1)
          else .token [] .endOfLine s.cnt
      | _ => result

def parse (buf noParse : Bytes) (commentFlag ppFlag : Bool) : Parsed :=
  parseEnd noParse commentFlag ppFlag
    (parseRun noParse commentFlag ppFlag buf.length ⟨[], .null, buf, 0⟩)

/-! ## Staying in the text -/

def Parsed.Within (low high : ℕ) : Parsed → Prop
  | .token _ _ cnt => low ≤ cnt ∧ cnt ≤ high
  | .ppError => True
  | .overrun => False

/-- A string ends in a backslash, or less than two characters behind `\x`, before it is closed. -/
def StringCutOff : Bytes → Prop
  | [] => False
  | c :: buf =>
      if c = chr '"' then False
      else if c = chr '\\' then
        match buf with
        | [] => True
        | d :: buf =>
            if d = chr 'x' then
              match buf with
              | _ :: _ :: buf => StringCutOff buf
              | _ => True
            else StringCutOff buf
      else if c = chr '\n' then False
      else StringCutOff buf

/-- A constant ends in a backslash before it is closed. -/
def ConstantCutOff : Bytes → Prop
  | [] => False
  | c :: buf =>
      if c = chr '\'' then False
      else if c = chr '\\' then
        match buf with
        | [] => True
        | _ :: buf => ConstantCutOff buf
      else if firstByte buf = chr '\n' then False
      else ConstantCutOff buf

/-- No newline follows that is not escaped. -/
def DefineCutOff : Bytes → Prop
  | [] => True
  | c :: buf =>
      if c = chr '\n' then False
      else if c = chr '\\' then
        match buf with
        | [] => True
        | _ :: buf => DefineCutOff buf
      else DefineCutOff buf

def CommentCutOff : Bytes → Prop
  | [] => True
  | c :: buf =>
      ¬ (c = chr '/' ∧ firstByte buf = chr '*') ∧ ¬ (c = chr '*' ∧ firstByte buf = chr '/') ∧
        CommentCutOff buf

theorem stringLoop_within {token buf : Bytes} {cnt low high : ℕ} (hlow : low ≤ cnt)
    (hhigh : cnt + buf.length ≤ high) :
    (stringLoop token buf cnt).Within low high ↔ ¬ StringCutOff buf := by
  have hx : ¬ chr 'x' = chr 'n' ∧ ¬ chr 'x' = chr 'r' := by decide
  have hn : chr 'n' ≠ chr 'x' := by decide
  have hr : chr 'r' ≠ chr 'x' := by decide
  have hquote : chr '\\' ≠ chr '"' := by decide
  induction token, buf, cnt using stringLoop.induct with
  | case1 token cnt => exact iff_of_true ⟨hlow, hhigh⟩ not_false
  | case2 token buf cnt =>
      unfold stringLoop StringCutOff
      rw [if_pos rfl, if_pos rfl]
      rw [List.length_cons] at hhigh
      exact iff_of_true ⟨by omega, by omega⟩ not_false
  | case3 token cnt _ =>
      unfold stringLoop StringCutOff
      rw [if_neg hquote, if_neg hquote, if_pos rfl, if_pos rfl]
      exact iff_of_false id (not_not.2 trivial)
  | case4 token cnt buf _ ih =>
      simp only [List.length_cons] at hhigh
      unfold stringLoop StringCutOff
      rw [if_neg hquote, if_neg hquote, if_pos rfl, if_pos rfl]
      simp only [if_true, if_neg hn]
      exact ih (by omega) (by omega)
  | case5 token cnt buf _ hrn ih =>
      simp only [List.length_cons] at hhigh
      unfold stringLoop StringCutOff
      rw [if_neg hquote, if_neg hquote, if_pos rfl, if_pos rfl]
      simp only [if_true, if_neg hrn, if_neg hr]
      exact ih (by omega) (by omega)
  | case6 token cnt a b buf _ _ _ ih =>
      simp only [List.length_cons] at hhigh
      unfold stringLoop StringCutOff
      rw [if_neg hquote, if_neg hquote, if_pos rfl, if_pos rfl]
      simp only [if_neg hx.1, if_neg hx.2, if_true]
      exact ih (by omega) (by omega)
  | case7 token cnt buf hshort _ _ _ =>
      unfold stringLoop StringCutOff
      rw [if_neg hquote, if_neg hquote, if_pos rfl, if_pos rfl]
      simp only [if_neg hx.1, if_neg hx.2, if_true]
      match buf, hshort with
      | [], _ => exact iff_of_false id (not_not.2 trivial)
      | [_], _ => exact iff_of_false id (not_not.2 trivial)
      | a :: b :: buf, hshort => exact (hshort a b buf rfl).elim
  | case8 token cnt d buf hdn hdr hdx _ ih =>
      simp only [List.length_cons] at hhigh
      unfold stringLoop StringCutOff
      rw [if_neg hquote, if_neg hquote, if_pos rfl, if_pos rfl]
      simp only [if_neg hdn, if_neg hdr, if_neg hdx]
      exact ih (by omega) (by omega)
  | case9 token buf cnt hnq hnb =>
      unfold stringLoop StringCutOff
      rw [if_neg hnq, if_neg hnq, if_neg hnb, if_neg hnb, if_pos rfl,
        if_pos rfl]
      exact iff_of_true trivial not_false
  | case10 token c buf cnt hcq hcb hcn ih =>
      rw [List.length_cons] at hhigh
      unfold stringLoop StringCutOff
      rw [if_neg hcq, if_neg hcq, if_neg hcb, if_neg hcb, if_neg hcn,
        if_neg hcn]
      exact ih (by omega) (by omega)

theorem constantLoop_within {token buf : Bytes} {cnt low high : ℕ} (hlow : low ≤ cnt)
    (hhigh : cnt + buf.length ≤ high) :
    (constantLoop token buf cnt).Within low high ↔ ¬ ConstantCutOff buf := by
  have hquote : chr '\\' ≠ chr '\'' := by decide
  induction token, buf, cnt using constantLoop.induct with
  | case1 token cnt => exact iff_of_true ⟨hlow, hhigh⟩ not_false
  | case2 token buf cnt =>
      unfold constantLoop ConstantCutOff
      rw [if_pos rfl, if_pos rfl]
      rw [List.length_cons] at hhigh
      exact iff_of_true ⟨by omega, by omega⟩ not_false
  | case3 token cnt _ =>
      unfold constantLoop ConstantCutOff
      rw [if_neg hquote, if_neg hquote, if_pos rfl, if_pos rfl]
      exact iff_of_false id (not_not.2 trivial)
  | case4 token cnt d buf _ ih =>
      simp only [List.length_cons] at hhigh
      unfold constantLoop ConstantCutOff
      rw [if_neg hquote, if_neg hquote, if_pos rfl, if_pos rfl]
      exact ih (by omega) (by omega)
  | case5 token c buf cnt hcq hcb hnext =>
      unfold constantLoop ConstantCutOff
      rw [if_neg hcq, if_neg hcq, if_neg hcb, if_neg hcb,
        if_pos hnext, if_pos hnext]
      exact iff_of_true trivial not_false
  | case6 token c buf cnt hcq hcb hnext ih =>
      rw [List.length_cons] at hhigh
      unfold constantLoop ConstantCutOff
      rw [if_neg hcq, if_neg hcq, if_neg hcb, if_neg hcb,
        if_neg hnext, if_neg hnext]
      exact ih (by omega) (by omega)

theorem defineLoop_within {token buf : Bytes} {cnt low high : ℕ} (hlow : low ≤ cnt)
    (hhigh : cnt + buf.length ≤ high) :
    (defineLoop token buf cnt).Within low high ↔ ¬ DefineCutOff buf := by
  have hnewline : chr '\\' ≠ chr '\n' := by decide
  induction token, buf, cnt using defineLoop.induct with
  | case1 token cnt => exact iff_of_false id (not_not.2 trivial)
  | case2 token cnt buf =>
      unfold defineLoop DefineCutOff
      rw [if_pos rfl, if_pos rfl]
      exact iff_of_true ⟨hlow, by omega⟩ not_false
  | case3 token cnt _ =>
      unfold defineLoop DefineCutOff
      rw [if_neg hnewline, if_neg hnewline, if_pos rfl, if_pos rfl]
      exact iff_of_false id (not_not.2 trivial)
  | case4 token cnt d buf _ ih =>
      simp only [List.length_cons] at hhigh
      unfold defineLoop DefineCutOff
      rw [if_neg hnewline, if_neg hnewline, if_pos rfl, if_pos rfl]
      exact ih (by omega) (by omega)
  | case5 token cnt c buf hcn hcb ih =>
      rw [List.length_cons] at hhigh
      unfold defineLoop DefineCutOff
      rw [if_neg hcn, if_neg hcn, if_neg hcb, if_neg hcb]
      exact ih (by omega) (by omega)

theorem commentLoop_within {token buf : Bytes} {cnt low high : ℕ} (hlow : low ≤ cnt)
    (hhigh : cnt + buf.length ≤ high) :
    (commentLoop token buf cnt).Within low high ↔ ¬ CommentCutOff buf := by
  induction buf generalizing token cnt with
  | nil => exact iff_of_false id (not_not.2 trivial)
  | cons c buf ih =>
      rw [List.length_cons] at hhigh
      rw [commentLoop, CommentCutOff]
      by_cases hopen : c = chr '/' ∧ firstByte buf = chr '*'
      · rw [if_pos hopen]
        exact iff_of_true trivial fun hcut => hcut.1 hopen
      · by_cases hclose : c = chr '*' ∧ firstByte buf = chr '/'
        · rw [if_neg hopen, if_pos hclose]
          refine iff_of_true ⟨by omega, ?_⟩ fun hcut => hcut.2.1 hclose
          cases buf with
          | nil => cases hclose.2
          | cons d buf =>
              rw [List.length_cons] at hhigh
              omega
        · rw [if_neg hopen, if_neg hclose, ih (by omega) (by omega)]
          exact not_congr ⟨fun hcut => ⟨hopen, hclose, hcut⟩, fun hcut => hcut.2.2⟩

theorem skipLine_within {token buf : Bytes} {cnt low high : ℕ} (hlow : low ≤ cnt)
    (hhigh : cnt + buf.length ≤ high) : (skipLine token buf cnt).Within low high := by
  induction buf generalizing cnt with
  | nil => exact ⟨hlow, hhigh⟩
  | cons c buf ih =>
      rw [List.length_cons] at hhigh
      rw [skipLine]
      split_ifs
      · exact ⟨by omega, by omega⟩
      · exact ih (by omega) (by omega)

theorem directiveData_length (buf : Bytes) : (directiveData buf).length ≤ buf.length :=
  (List.length_dropWhile_le ..).trans (List.length_dropWhile_le ..)

theorem directiveWord_within {ignored token buf : Bytes} {type : ParseType} {cnt low high : ℕ}
    (hlow : low < cnt + (buf.length - (directiveData buf).length))
    (hhigh : cnt + buf.length ≤ high) :
    (directiveWord ignored type token buf cnt).Within (low + 1) high ↔
      chr '\n' ∈ directiveData buf := by
  rw [directiveWord]
  by_cases hline : chr '\n' ∈ directiveData buf
  · rw [if_pos hline]
    have hle : ((directiveData buf).dropWhile (· ≠ chr '\n')).length ≤ (directiveData buf).length :=
      List.length_dropWhile_le ..
    exact iff_of_true ⟨by omega, by omega⟩ hline
  · rw [if_neg hline]
    exact iff_of_false id hline

/-! ## The run of the loop -/

section

variable {noParse : Bytes} {commentFlag ppFlag : Bool}

theorem numberLoop_length (token buf : Bytes) (cnt : ℕ) :
    cnt ≤ (numberLoop noParse token buf cnt).cnt ∧
      (numberLoop noParse token buf cnt).cnt + (numberLoop noParse token buf cnt).buf.length =
        cnt + buf.length := by
  induction token, buf, cnt using numberLoop.induct noParse with
  | case1 token c d buf cnt hdigit ih =>
      rw [numberLoop, if_pos hdigit]
      simp only [List.length_cons] at ih ⊢
      omega
  | case2 token c d buf cnt hdigit hexponent ih =>
      rw [numberLoop, if_neg hdigit, if_pos hexponent]
      simp only [List.length_cons] at ih ⊢
      omega
  | case3 token c d buf cnt hdigit hexponent hno ih =>
      rw [numberLoop, if_neg hdigit, if_neg hexponent, if_pos hno]
      simp only [List.length_cons] at ih ⊢
      omega
  | case4 token c d buf cnt hdigit hexponent hno =>
      rw [numberLoop, if_neg hdigit, if_neg hexponent, if_neg hno]
      exact ⟨le_refl _, rfl⟩
  | case5 token c cnt hdigit =>
      rw [numberLoop, if_pos hdigit]
      exact ⟨Nat.le_succ _, rfl⟩
  | case6 token c cnt hdigit =>
      rw [numberLoop, if_neg hdigit]
      exact ⟨le_refl _, rfl⟩
  | case7 token cnt => exact ⟨le_refl _, rfl⟩

theorem nameLoop_length (token buf : Bytes) (cnt : ℕ) :
    cnt ≤ (nameLoop token buf cnt).cnt ∧
      (nameLoop token buf cnt).cnt + (nameLoop token buf cnt).buf.length = cnt + buf.length := by
  induction buf generalizing token cnt with
  | nil => exact ⟨le_refl _, rfl⟩
  | cons c buf ih =>
      rw [nameLoop]
      split_ifs
      · have := ih (token ++ [c]) (cnt + 1)
        simp only [List.length_cons]
        omega
      · exact ⟨le_refl _, rfl⟩

def ParseState.Counts (s : ParseState) (length : ℕ) : Prop :=
  s.cnt + s.buf.length = length ∧ (s.token ≠ [] → 0 < s.cnt)

def ParseState.Ends (noParse : Bytes) (commentFlag ppFlag : Bool) (s : ParseState) : Prop :=
  ∀ c buf, s.buf = c :: buf →
    parseBranch noParse commentFlag ppFlag c buf ≠ .number ∧
    parseBranch noParse commentFlag ppFlag c buf ≠ .name ∧
    parseBranch noParse commentFlag ppFlag c buf ≠ .noParse ∧
    (parseBranch noParse commentFlag ppFlag c buf = .other → s.token ≠ [])

theorem parseRun_counts (n : ℕ) {s : ParseState} {length : ℕ} (h : s.Counts length) :
    (parseRun noParse commentFlag ppFlag n s).Counts length := by
  induction n generalizing s with
  | zero => exact h
  | succ n ih =>
      rw [parseRun]
      cases hbuf : s.buf with
      | nil => exact h
      | cons c buf =>
          have hlength : s.cnt + 1 + buf.length = length := by
            have := h.1
            rw [hbuf, List.length_cons] at this
            omega
          dsimp only
          cases parseBranch noParse commentFlag ppFlag c buf with
          | number =>
              obtain ⟨hle, heq⟩ := @numberLoop_length noParse (s.token ++ [c]) buf
                (s.cnt + 1)
              exact ih ⟨heq.trans hlength, fun _ => by omega⟩
          | name =>
              obtain ⟨hle, heq⟩ := nameLoop_length (s.token ++ [c]) buf (s.cnt + 1)
              exact ih ⟨heq.trans hlength, fun _ => by omega⟩
          | noParse => exact ih ⟨hlength, fun _ => Nat.succ_pos _⟩
          | other =>
              dsimp only
              split_ifs
              · exact ih ⟨hlength, fun _ => Nat.succ_pos _⟩
              · exact h
          | _ => exact h

theorem parseRun_ends {n : ℕ} {s : ParseState} (h : s.buf.length ≤ n) :
    (parseRun noParse commentFlag ppFlag n s).Ends noParse commentFlag ppFlag := by
  induction n generalizing s with
  | zero =>
      intro c buf hbuf
      have hnil : s.buf = c :: buf := hbuf
      rw [hnil] at h
      cases h
  | succ n ih =>
      rw [parseRun]
      cases hbuf : s.buf with
      | nil =>
          intro c buf hcons
          cases hbuf.symm.trans hcons
      | cons c buf =>
          rw [hbuf, List.length_cons] at h
          have hstop : parseBranch noParse commentFlag ppFlag c buf ≠ .number →
              parseBranch noParse commentFlag ppFlag c buf ≠ .name →
              parseBranch noParse commentFlag ppFlag c buf ≠ .noParse →
              (parseBranch noParse commentFlag ppFlag c buf = .other → s.token ≠ []) →
              s.Ends noParse commentFlag ppFlag := by
            intro hnumber hname hno hother c' buf' hcons
            obtain ⟨rfl, rfl⟩ := List.cons.inj (hbuf.symm.trans hcons)
            exact ⟨hnumber, hname, hno, hother⟩
          dsimp only
          cases hbranch : parseBranch noParse commentFlag ppFlag c buf with
          | number =>
              obtain ⟨hle, heq⟩ := @numberLoop_length noParse (s.token ++ [c]) buf
                (s.cnt + 1)
              exact ih (by omega)
          | name =>
              obtain ⟨hle, heq⟩ := nameLoop_length (s.token ++ [c]) buf (s.cnt + 1)
              exact ih (by omega)
          | noParse => exact ih (Nat.le_of_succ_le_succ h)
          | other =>
              dsimp only
              split_ifs with htoken
              · exact ih (Nat.le_of_succ_le_succ h)
              · exact hstop (by rw [hbranch]; decide) (by rw [hbranch]; decide)
                  (by rw [hbranch]; decide) fun _ => htoken
          | _ =>
              exact hstop (by rw [hbranch]; decide) (by rw [hbranch]; decide)
                (by rw [hbranch]; decide) fun heq => by rw [hbranch] at heq; cases heq

/-! ## The branches that look ahead -/

def ParseBranch.Sees (c : UInt8) (buf : Bytes) : ParseBranch → Prop
  | .poundInclude => cstr "#include " <+: c :: buf
  | .poundDefine => cstr "#define " <+: c :: buf
  | .poundIfdef => cstr "#ifdef " <+: c :: buf
  | .poundElse => cstr "#else" <+: c :: buf
  | .poundEndif => cstr "#endif" <+: c :: buf
  | .comment => firstByte buf = chr '*'
  | .endOfLine => c ∈ cstr "\n\r;"
  | _ => True

theorem parseBranch_sees (c : UInt8) (buf : Bytes) :
    (parseBranch noParse commentFlag ppFlag c buf).Sees c buf := by
  have hpound : ∀ text : String,
      (ppFlag && (cstr text).isPrefixOf (c :: buf)) = true → cstr text <+: c :: buf := by
    intro text h
    exact List.isPrefixOf_iff_prefix.1 (Bool.and_eq_true_iff.1 h).2
  refine iteInduction (fun _ => trivial) fun _ => ?_
  refine iteInduction (fun _ => trivial) fun _ => ?_
  refine iteInduction (fun _ => trivial) fun _ => ?_
  refine iteInduction (fun _ => trivial) fun _ => ?_
  refine iteInduction (fun _ => trivial) fun _ => ?_
  refine iteInduction (fun h => hpound "#include " h) fun _ => ?_
  refine iteInduction (fun h => hpound "#define " h) fun _ => ?_
  refine iteInduction (fun h => hpound "#ifdef " h) fun _ => ?_
  refine iteInduction (fun h => ?_) fun _ => ?_
  · rcases h with h | h
    · exact (List.prefix_append (cstr "#else") (cstr "\n")).trans (hpound "#else\n" h)
    · exact (List.prefix_append (cstr "#else") (cstr " ")).trans (hpound "#else " h)
  refine iteInduction (fun h => ?_) fun _ => ?_
  · rcases h with h | h
    · exact (List.prefix_append (cstr "#endif") (cstr "\n")).trans (hpound "#endif\n" h)
    · exact (List.prefix_append (cstr "#endif") (cstr " ")).trans (hpound "#endif " h)
  refine iteInduction (fun _ => trivial) fun _ => ?_
  refine iteInduction (fun _ => trivial) fun _ => ?_
  refine iteInduction (fun h => h.2.1) fun _ => ?_
  refine iteInduction (fun _ => trivial) fun _ => ?_
  refine iteInduction (fun _ => trivial) fun _ => ?_
  refine iteInduction (fun _ => trivial) fun _ => ?_
  exact iteInduction (fun h => h) fun _ => trivial

/-! ## What goes wrong -/

/-- The loop ends at a string, a constant, a directive or a comment that the end of the text cuts
off, at a last backslash, or at once at a carriage return without a newline. -/
def ParseState.Fails (noParse : Bytes) (commentFlag ppFlag : Bool) (s : ParseState) : Prop :=
  match s.buf with
  | [] => False
  | c :: buf =>
      match parseBranch noParse commentFlag ppFlag c buf with
      | .string => StringCutOff buf
      | .constant => ConstantCutOff buf
      | .poundInclude => chr '\n' ∉ directiveData (c :: buf)
      | .poundDefine => DefineCutOff (directiveData (c :: buf))
      | .poundIfdef => chr '\n' ∉ directiveData (c :: buf)
      | .comment => CommentCutOff buf.tail
      | .backslash => s.token = [] ∧ buf = []
      | .endOfLine => s.token = [] ∧ s.cnt = 0 ∧ c = chr '\r' ∧ firstByte buf ≠ chr '\n'
      | _ => False

theorem firstByte_ne_zero {buf : Bytes} {c : UInt8} (h : firstByte buf = c) (hc : c ≠ 0) :
    1 ≤ buf.length := by
  cases buf with
  | nil => exact absurd h.symm hc
  | cons d buf => exact Nat.succ_le_succ (Nat.zero_le _)

theorem directiveData_pound {text : Bytes} {c : UInt8} {buf : Bytes}
    (h : chr '#' :: text <+: c :: buf) : (directiveData (c :: buf)).length ≤ buf.length := by
  obtain ⟨rest, hrest⟩ := h
  have hc : c = chr '#' := (List.cons.inj hrest).1.symm
  have hdrop : (c :: buf).dropWhile (· ≠ chr ' ') = buf.dropWhile (· ≠ chr ' ') := by
    rw [hc]
    exact List.dropWhile_cons_of_pos (by decide)
  rw [directiveData, hdrop]
  exact directiveData_length buf

theorem parseBackslash_within {token buf : Bytes} {cnt high : ℕ}
    (hhigh : cnt + (buf.length + 1) ≤ high) :
    (parseBackslash token cnt buf).Within 1 high ↔ buf ≠ [] := by
  cases buf with
  | nil => exact iff_of_false id (not_not.2 rfl)
  | cons d buf =>
      rw [List.length_cons] at hhigh
      refine iff_of_true ?_ (List.cons_ne_nil _ _)
      have hone : ∀ {token' : Bytes}, (Parsed.token token' .other (cnt + 1)).Within 1 high :=
        ⟨by omega, by omega⟩
      have htwo : ∀ {token' : Bytes}, (Parsed.token token' .other (cnt + 2)).Within 1 high :=
        ⟨by omega, by omega⟩
      rw [parseBackslash]
      refine iteInduction (fun _ => htwo) fun _ => ?_
      refine iteInduction (fun _ => ?_) fun _ => hone
      refine iteInduction (fun hfirst => ?_) fun _ => hone
      refine iteInduction (fun hsecond => ?_) fun _ => htwo
      have hlength : 2 ≤ buf.length := by
        match buf, hfirst, hsecond with
        | [], hfirst, _ => cases hfirst
        | [_], _, hsecond => cases hsecond
        | _ :: _ :: buf, _, _ => exact Nat.le_add_left 2 buf.length
      exact ⟨by omega, by omega⟩

theorem parseEnd_within {s : ParseState} {length : ℕ} (hcounts : s.Counts length)
    (hpos : 0 < length) (hends : s.Ends noParse commentFlag ppFlag) :
    (parseEnd noParse commentFlag ppFlag s).Within 1 length ↔
      ¬ s.Fails noParse commentFlag ppFlag := by
  obtain ⟨hlength, htoken⟩ := hcounts
  have hresult : s.token ≠ [] → (Parsed.token s.token s.type s.cnt).Within 1 length :=
    fun h => ⟨htoken h, by omega⟩
  unfold parseEnd ParseState.Fails
  cases hbuf : s.buf with
  | nil =>
      rw [hbuf, List.length_nil] at hlength
      exact iff_of_true ⟨by omega, by omega⟩ not_false
  | cons c buf =>
      rw [hbuf, List.length_cons] at hlength
      have hsees := @parseBranch_sees noParse commentFlag ppFlag c buf
      obtain ⟨hnumber, hname, hno, hother⟩ := hends c buf hbuf
      dsimp only
      generalize parseBranch noParse commentFlag ppFlag c buf = b at *
      cases b with
      | number => exact absurd rfl hnumber
      | name => exact absurd rfl hname
      | noParse => exact absurd rfl hno
      | other => exact iff_of_true (hresult (hother rfl)) not_false
      | string => exact stringLoop_within (by omega) (by omega)
      | constant => exact constantLoop_within (by omega) (by omega)
      | poundInclude =>
          have hdata := @directiveData_pound (cstr "include ") _ _ hsees
          refine (directiveWord_within ?_ ?_).trans not_not.symm
          · rw [List.length_cons]
            omega
          · rw [List.length_cons]
            omega
      | poundDefine =>
          have hdata := @directiveData_pound (cstr "define ") _ _ hsees
          refine defineLoop_within ?_ ?_
          · rw [List.length_cons]
            omega
          · rw [List.length_cons]
            omega
      | poundIfdef =>
          have hdata := @directiveData_pound (cstr "ifdef ") _ _ hsees
          refine (directiveWord_within ?_ ?_).trans not_not.symm
          · rw [List.length_cons]
            omega
          · rw [List.length_cons]
            omega
      | poundElse =>
          have hle : 5 ≤ (c :: buf).length := hsees.length_le
          rw [List.length_cons] at hle
          exact iff_of_true ⟨by omega, by omega⟩ not_false
      | poundEndif =>
          have hle : 6 ≤ (c :: buf).length := hsees.length_le
          rw [List.length_cons] at hle
          exact iff_of_true ⟨by omega, by omega⟩ not_false
      | lineComment =>
          exact iff_of_true (skipLine_within (by omega) (by omega)) not_false
      | comment =>
          have hle : 1 ≤ buf.length := firstByte_ne_zero hsees (by decide)
          refine commentLoop_within (by omega) ?_
          rw [List.length_tail]
          omega
      | comparison =>
          refine iff_of_true ?_ not_false
          refine iteInduction hresult fun _ => ?_
          refine iteInduction (fun hequal => ?_) fun _ => ⟨by omega, by omega⟩
          have hle : 1 ≤ buf.length := firstByte_ne_zero hequal (by decide)
          exact ⟨by omega, by omega⟩
      | punctuation =>
          refine iff_of_true ?_ not_false
          exact iteInduction hresult fun _ => ⟨by omega, by omega⟩
      | backslash =>
          by_cases htokenNil : s.token = []
          · dsimp only
            rw [if_neg (not_not.2 htokenNil), parseBackslash_within (by omega)]
            exact ⟨fun hne hlast => hne hlast.2, fun hnot hnil => hnot ⟨htokenNil, hnil⟩⟩
          · dsimp only
            rw [if_pos htokenNil]
            exact iff_of_true (hresult htokenNil) fun hlast => htokenNil hlast.1
      | endOfLine =>
          by_cases htokenNil : s.token = []
          · dsimp only
            rw [if_neg (not_not.2 htokenNil)]
            by_cases hpair : c = chr '\r' ∧ firstByte buf = chr '\n'
            · rw [if_pos hpair]
              exact iff_of_true ⟨by omega, by omega⟩ fun hstall => hstall.2.2.2 hpair.2
            · rw [if_neg hpair]
              by_cases hline : c = chr '\n' ∨ c = chr ';'
              · rw [if_pos hline]
                refine iff_of_true ⟨by omega, by omega⟩ fun hstall => ?_
                rw [hstall.2.2.1] at hline
                exact absurd hline (by decide)
              · rw [if_neg hline]
                have hreturn : c = chr '\r' := by
                  have hsees : c ∈ [chr '\n', chr '\r', chr ';'] := hsees
                  rcases List.mem_cons.1 hsees with h | hsees
                  · exact absurd (.inl h) hline
                  · rcases List.mem_cons.1 hsees with h | hsees
                    · exact h
                    · exact absurd (.inr (List.mem_singleton.1 hsees)) hline
                constructor
                · rintro ⟨hone, -⟩ ⟨-, hzero, -⟩
                  omega
                · intro hstall
                  refine ⟨?_, by omega⟩
                  by_contra hzero
                  exact hstall ⟨htokenNil, by omega, hreturn, fun hnext => hpair ⟨hreturn, hnext⟩⟩
          · dsimp only
            rw [if_pos htokenNil]
            exact iff_of_true (hresult htokenNil) fun hstall => htokenNil hstall.1

def parseStop (buf noParse : Bytes) (commentFlag ppFlag : Bool) : ParseState :=
  parseRun noParse commentFlag ppFlag buf.length ⟨[], .null, buf, 0⟩

/-- A call takes at least one character and stays in the text, exactly when the loop does not end at
what the text cuts off. -/
theorem parse_within_iff (noParse : Bytes) (commentFlag ppFlag : Bool) (c : UInt8) (buf : Bytes) :
    (parse (c :: buf) noParse commentFlag ppFlag).Within 1 (c :: buf).length ↔
      ¬ (parseStop (c :: buf) noParse commentFlag ppFlag).Fails noParse commentFlag ppFlag := by
  have hcounts : (⟨[], .null, c :: buf, 0⟩ : ParseState).Counts (c :: buf).length :=
    ⟨Nat.zero_add _, fun h => absurd rfl h⟩
  exact parseEnd_within (parseRun_counts _ hcounts) (Nat.succ_pos _) (parseRun_ends (le_refl _))

/-- At a carriage return alone nothing is taken. -/
theorem parse_not_always_within :
    parse [chr '\r'] [] true false = .token [] .endOfLine 0 ∧
      ¬ (parse [chr '\r'] [] true false).Within 1 1 := by
  have hparse : parse [chr '\r'] [] true false = .token [] .endOfLine 0 := rfl
  refine ⟨hparse, ?_⟩
  rw [hparse]
  exact fun hwithin => absurd hwithin.1 (by decide)

end

end ScOpen
