import ScOpen.ReadMachine
import ScOpen.ParseLengths
import ScOpen.IntegerValues
import ScOpen.MemoryBytes
import Mathlib.Data.Set.Card
import Mathlib.Data.Set.Finite.List
import Mathlib.Algebra.Order.BigOperators.Group.Finset

/-!
# The reading ends

Each token shortens the text that it is read from, and the value of a macro or an included file
goes on top of it. So the reading goes on for ever only when the texts pile up. All of them are at
most as long as the longest file or the longest value that the process starts with, there are
finitely many such texts, and then some text is read inside of itself without a bound.
-/

namespace ScOpen

namespace Reading

section

variable {lib : PpLibrary} {ppFlag : Bool} {type : UInt8} {text source rest : Bytes}

/-- What a name can be: a variable, a keyword, or what the token behind it makes of it. -/
theorem nameToken_cases {text' rest' : Bytes}
    (h : nameToken lib ppFlag text rest = .token type text' rest') :
    (text' = text ∧ rest' = rest) ∧
      (chr '$' ∈ text ∧ type = TT_VARIABLE ∨
        chr '$' ∉ text ∧ lib.tokenType text ≠ TT_UNKNOWN ∧ type = lib.tokenType text ∨
        chr '$' ∉ text ∧ lib.tokenType text = TT_UNKNOWN ∧
          ∃ next parsed cnt, parse rest [] true ppFlag = .token next parsed cnt ∧
            type = if cString next = cstr "(" ∧ lib.functionType text ≠ TT_UNKNOWN then
              lib.functionType text else TT_IDENTIFIER) := by
  rw [nameToken] at h
  dsimp only at h
  by_cases hdollar : chr '$' ∈ text
  · rw [if_pos hdollar] at h
    cases h
    exact ⟨⟨rfl, rfl⟩, .inl ⟨hdollar, rfl⟩⟩
  rw [if_neg hdollar] at h
  by_cases hkeyword : lib.tokenType text ≠ TT_UNKNOWN
  · rw [if_pos hkeyword] at h
    cases h
    exact ⟨⟨rfl, rfl⟩, .inr (.inl ⟨hdollar, hkeyword, rfl⟩)⟩
  rw [if_neg hkeyword] at h
  cases hnext : parse rest [] true ppFlag with
  | ppError =>
      rw [hnext] at h
      cases h
  | overrun =>
      rw [hnext] at h
      cases h
  | token next parsed cnt =>
      rw [hnext] at h
      dsimp only at h
      by_cases hfunction : cString next = cstr "(" ∧ lib.functionType text ≠ TT_UNKNOWN
      · rw [if_pos hfunction] at h
        cases h
        exact ⟨⟨rfl, rfl⟩,
          .inr (.inr ⟨hdollar, not_not.1 hkeyword, _, _, _, rfl, (if_pos hfunction).symm⟩)⟩
      · rw [if_neg hfunction] at h
        cases h
        exact ⟨⟨rfl, rfl⟩,
          .inr (.inr ⟨hdollar, not_not.1 hkeyword, _, _, _, rfl, (if_neg hfunction).symm⟩)⟩

theorem getTokenText_token (h : getTokenText lib ppFlag source = .token type text rest) :
    ∃ parsed cnt, parse (cString source) [] true ppFlag = .token text parsed cnt ∧
      rest = (cString source).drop cnt ∧ (parsed = .null → type = TT_NULL_TOKEN) := by
  rw [getTokenText] at h
  cases hparse : parse (cString source) [] true ppFlag with
  | ppError =>
      rw [hparse] at h
      cases h
  | overrun =>
      rw [hparse] at h
      cases h
  | token token parsed cnt =>
      rw [hparse] at h
      dsimp only at h
      cases parsed with
      | name =>
          obtain ⟨⟨rfl, rfl⟩, -⟩ := nameToken_cases h
          exact ⟨_, _, rfl, rfl, fun heq => by cases heq⟩
      | null =>
          cases h
          exact ⟨_, _, rfl, rfl, fun _ => rfl⟩
      | _ =>
          cases h
          exact ⟨_, _, rfl, rfl, fun heq => by cases heq⟩

theorem cString_length (text : Bytes) : (cString text).length ≤ text.length :=
  (List.takeWhile_prefix _).length_le

theorem getTokenText_rest (h : getTokenText lib ppFlag source = .token type text rest) :
    rest.length ≤ source.length := by
  obtain ⟨parsed, cnt, -, rfl, -⟩ := getTokenText_token h
  exact (List.drop_sublist _ _).length_le.trans (cString_length source)

/-- A token is taken from the text, and is not longer than it. -/
theorem getTokenText_sized (h : getTokenText lib ppFlag source = .token type text rest)
    (hnull : type ≠ TT_NULL_TOKEN) (hreturn : ¬ AtReturn (cString source)) :
    rest.length < source.length ∧ text.length ≤ max source.length 4 := by
  obtain ⟨parsed, cnt, hparse, rfl, htype⟩ := getTokenText_token h
  have hne : cString source ≠ [] := by
    intro hnil
    rw [hnil] at hparse
    cases hparse
    exact hnull (htype rfl)
  have hlength := cString_length source
  have hpos := List.length_pos_iff.2 hne
  have hsized : (parse (cString source) [] true ppFlag).Sized 1 (max (cString source).length 4) :=
    parse_sized hne hreturn
  rw [hparse] at hsized
  obtain ⟨hcnt, htext⟩ := hsized
  rw [List.length_drop]
  exact ⟨by omega, by omega⟩

end

/-! ## How long the texts are -/

def TextSized (L : ℕ) (t : ReadText) : Prop := t.source.length ≤ L ∧ t.text.length ≤ L

structure MacrosSized (L : ℕ) (macros : Macros) : Prop where
  values : ∀ name value, macros name = some value → value.length ≤ L
  finite : {name | (macros name).isSome}.Finite

/-- What is kept of the arguments of a macro is not longer than a text. -/
def AtSized (L rest : ℕ) : ReadAt → Prop
  | .argsOpen _ value => value.length ≤ L
  | .args _ value i => value.length ≤ L ∧ i + rest ≤ L
  | _ => True

structure Sized (L : ℕ) (st : Reading) : Prop where
  top : TextSized L st.top
  outer : ∀ t ∈ st.outer, TextSized L t
  macros : MacrosSized L st.pp.macros
  at_ : AtSized L st.top.source.length st.at_

def LibrarySized (lib : PpLibrary) (L : ℕ) : Prop :=
  4 ≤ L ∧ ∀ file ∈ lib.files, file.2.length ≤ L

section

variable {lib : PpLibrary} {L : ℕ} {type : UInt8} {text : Bytes} {st st' : Reading}

theorem LibrarySized.lookup (h : LibrarySized lib L) {name source : Bytes}
    (hfile : lib.files.lookup name = some source) : source.length ≤ L := by
  obtain ⟨before, after, heq, -⟩ := List.lookup_eq_some_iff.1 hfile
  have hmem : (name, source) ∈ lib.files := by
    rw [heq]
    exact List.mem_append_right _ List.mem_cons_self
  exact h.2 _ hmem

theorem MacrosSized.put {macros : Macros} (h : MacrosSized L macros) {name value : Bytes}
    (hvalue : value.length ≤ L) : MacrosSized L (Function.update macros name (some value)) := by
  refine ⟨?_, (h.finite.insert name).subset ?_⟩
  · intro name' value' hname
    by_cases heq : name' = name
    · rw [heq, Function.update_self] at hname
      cases hname
      exact hvalue
    · rw [Function.update_of_ne heq] at hname
      exact h.values name' value' hname
  · intro name' hname
    by_cases heq : name' = name
    · exact .inl heq
    · rw [Set.mem_ofPred_eq, Function.update_of_ne heq] at hname
      exact .inr hname

theorem substitution_value {name value : Bytes} (h : st.substitution text = some (name, value)) :
    st.pp.macros name = some value := by
  rw [substitution] at h
  by_cases hpp : st.top.ppFlag = true
  · rw [if_pos hpp, macroOf] at h
    cases hlocal : st.pp.macros (st.top.macroName ++ chr '-' :: text) with
    | some local_ =>
        rw [hlocal] at h
        cases h
        exact hlocal
    | none =>
        rw [hlocal] at h
        obtain ⟨global, hglobal, heq⟩ := Option.map_eq_some_iff.1 h
        cases heq
        exact hglobal
  · rw [if_neg hpp] at h
    cases h

theorem AtSized.mono {rest rest' : ℕ} {at_ : ReadAt} (h : AtSized L rest at_)
    (hrest : rest' ≤ rest) : AtSized L rest' at_ := by
  cases at_ with
  | args name value i => exact ⟨h.1, (Nat.add_le_add_left hrest i).trans h.2⟩
  | argsOpen name value => exact h
  | _ => exact trivial

theorem Sized.moveTo (h : Sized L st) {rest : Bytes}
    (hrest : rest.length ≤ st.top.source.length) : Sized L (st.moveTo rest) :=
   ⟨⟨hrest.trans h.top.1, h.top.2⟩, h.outer, h.macros, h.at_.mono hrest⟩

theorem Sized.enter (h : Sized L st) {call : ReadCall} {pp : PpState}
    (hcall : call.source.length ≤ L) (hpp : MacrosSized L pp.macros) :
    Sized L (st.enter call pp) :=
  ⟨⟨hcall, hcall⟩, List.forall_mem_cons.2 ⟨h.top, h.outer⟩, hpp, trivial⟩

theorem Sized.kept (h : Sized L st) (hlib : LibrarySized lib L) (htext : text.length ≤ L)
    (hat : st.at_ = .loop) (hkept : Kept lib type text st st') : Sized L st' := by
  have hloop : AtSized L st.top.source.length st.at_ := by
    rw [hat]
    exact trivial
  cases hkept with
  | stored _ => exact ⟨h.top, h.outer, h.macros, hloop⟩
  | args _ hvalue => exact ⟨h.top, h.outer, h.macros, h.macros.values _ _ (substitution_value hvalue)⟩
  | value _ hvalue => exact h.enter (h.macros.values _ _ (substitution_value hvalue)) h.macros
  | file _ hfile =>
      have hsized : Sized L (st.withPp (st.pp.save [TT_END_OF_LINE])) :=
        ⟨h.top, h.outer, h.macros, hloop⟩
      exact hsized.enter (hlib.lookup hfile) h.macros
  | search _ => exact ⟨h.top, h.outer, h.macros, trivial⟩
  | define _ hvalue => exact ⟨h.top, h.outer, h.macros.put (hvalue.trans htext), hloop⟩
  | ifdef _ => exact ⟨h.top, h.outer, h.macros, hloop⟩

theorem Sized.turned (h : Sized L st) (hlib : LibrarySized lib L)
    (htext : type ≠ TT_NULL_TOKEN → text.length ≤ L) (hat : st.at_ = .loop)
    (hturned : Turned lib type text st st') : Sized L st' := by
  cases hturned with
  | returned _ houter =>
      have hall := h.outer
      rw [houter, List.forall_mem_cons] at hall
      refine ⟨hall.1, hall.2, h.macros, ?_⟩
      rw [hat]
      exact trivial
  | passed _ => exact ⟨h.top, h.outer, h.macros, h.at_⟩
  | @kept lineNumber _ htype hkept =>
      have hsized :
          Sized L { st with top := { st.top with lineNumber := lineNumber, esc := false } } :=
        ⟨h.top, h.outer, h.macros, h.at_⟩
      exact hsized.kept hlib (htext htype) hat hkept

theorem decimal_length (n : ℕ) : (decimal n).length ≤ max n 1 := by
  induction n using Nat.strong_induction_on with
  | _ n ih =>
      rw [decimal]
      by_cases hlt : n < 10
      · rw [if_pos hlt]
        exact le_max_right _ _
      · rw [if_neg hlt, List.length_append]
        have := ih (n / 10) (by omega)
        simp only [List.length_cons, List.length_nil]
        omega

theorem Sized.argTurned (h : Sized L st) (hL : 4 ≤ L) {name value : Bytes} {i rest : ℕ}
    (hat : st.at_ = .args name value i) (hargs : i + rest ≤ L)
    (hrest : st.top.source.length < rest) (htext : text.length ≤ L)
    (hturn : argTurn name value i type text st = .inl st') : Sized L st' := by
  have hvalue : value.length ≤ L := by
    have := h.at_
    rw [hat] at this
    exact this.1
  obtain ⟨-, rfl | rfl | rfl⟩ := argTurn_cases hturn
  · have hnumber : (decimal i).length ≤ L := by
      have := decimal_length i
      omega
    have hentered :
        Sized L (st.enter (valueCall name value) (st.pp.put (macroArg 0) (decimal i))) :=
      h.enter hvalue (h.macros.put hnumber)
    exact ⟨hentered.top, hentered.outer, hentered.macros, trivial⟩
  · exact h
  · exact ⟨h.top, h.outer, h.macros.put ((cString_length text).trans htext), hvalue, by
      change i + 1 + st.top.source.length ≤ L
      omega⟩

theorem Sized.nameTurned (h : Sized L st) {name : Bytes} {numArgs i : ℕ}
    (hturn : nameTurn name numArgs i type text st = .inl st') : Sized L st' := by
  obtain ⟨-, rfl | rfl | ⟨arg, rfl, harg⟩⟩ := nameTurn_cases hturn
  · exact ⟨⟨h.top.1, h.top.1⟩, h.outer, h.macros, trivial⟩
  · exact h
  · have hget : ∀ {name value : Bytes}, value.length ≤ L →
        ((st.pp.macros name).getD value).length ≤ L := by
      intro name value hvalue
      cases hmacro : st.pp.macros name with
      | none => exact hvalue
      | some value' => exact h.macros.values _ _ hmacro
    have hargLength : arg.length ≤ L := by
      rw [harg]
      exact hget (Nat.zero_le _)
    exact ⟨h.top, h.outer, h.macros.put (hget hargLength), trivial⟩

/-- A carriage return alone is read again and again. -/
def Stalls (st : Reading) : Prop :=
  match st.at_ with
  | .loop | .args .. | .names .. => AtReturn (cString st.top.source)
  | _ => False

theorem getTokenText_return {ppFlag : Bool} {source : Bytes} (h : AtReturn (cString source)) :
    getTokenText lib ppFlag source = .token TT_END_OF_LINE [] (cString source) := by
  rw [getTokenText, parse_return h]
  rfl

theorem open_sized {ppFlag : Bool} {source rest : Bytes}
    (h : getTokenText lib ppFlag source = .token TT_OPEN_PAREN text rest) :
    rest.length < source.length := by
  have hreturn : ¬ AtReturn (cString source) := by
    intro hreturn
    rw [getTokenText_return hreturn] at h
    exact absurd (Lexed.token.inj h).1 (by decide)
  exact (getTokenText_sized h (by decide) hreturn).1

theorem Sized.step (h : Sized L st) (hlib : LibrarySized lib L) (hstalls : ¬ st.Stalls)
    (hstep : st.step lib = .inl st') : Sized L st' := by
  have htop := h.top.1
  have hL := hlib.1
  rw [Reading.step] at hstep
  cases hat : st.at_ with
  | loop =>
      rw [hat] at hstep
      obtain ⟨type, text, rest, htoken, hturn⟩ := lex_cases hstep
      have hreturn : ¬ AtReturn (cString st.top.source) := by
        rw [Stalls, hat] at hstalls
        exact hstalls
      refine (h.moveTo (getTokenText_rest htoken)).turned hlib ?_ hat (turn_cases hturn)
      intro hnull
      have := (getTokenText_sized htoken hnull hreturn).2
      omega
  | argsOpen name value =>
      rw [hat] at hstep
      obtain ⟨type, text, rest, htoken, hturn⟩ := lex_cases hstep
      have hmoved := h.moveTo (getTokenText_rest htoken)
      by_cases hopen : type = TT_OPEN_PAREN
      · rw [if_pos hopen] at hturn
        cases hturn
        have hvalue := hmoved.at_
        change AtSized L _ st.at_ at hvalue
        rw [hat] at hvalue
        refine ⟨hmoved.top, hmoved.outer, hmoved.macros, hvalue, ?_⟩
        rw [Nat.zero_add]
        exact hmoved.top.1
      · rw [if_neg hopen] at hturn
        cases hturn
  | args name value i =>
      rw [hat] at hstep
      obtain ⟨type, text, rest, htoken, hturn⟩ := lex_cases hstep
      have hreturn : ¬ AtReturn (cString st.top.source) := by
        rw [Stalls, hat] at hstalls
        exact hstalls
      obtain ⟨hnull, -⟩ := argTurn_cases hturn
      obtain ⟨hrest, htext⟩ := getTokenText_sized htoken hnull hreturn
      have hargs : i + st.top.source.length ≤ L := by
        have := h.at_
        rw [hat] at this
        exact this.2
      exact (h.moveTo hrest.le).argTurned hL hat hargs hrest (by omega) hturn
  | namesOpen name numArgs =>
      rw [hat] at hstep
      obtain ⟨type, text, rest, htoken, hturn⟩ := lex_cases hstep
      have hmoved := h.moveTo (getTokenText_rest htoken)
      by_cases hopen : type = TT_OPEN_PAREN
      · rw [if_pos hopen] at hturn
        cases hturn
        exact ⟨hmoved.top, hmoved.outer, hmoved.macros, trivial⟩
      · rw [if_neg hopen] at hturn
        cases hturn
  | names name numArgs i =>
      rw [hat] at hstep
      obtain ⟨type, text, rest, htoken, hturn⟩ := lex_cases hstep
      exact (h.moveTo (getTokenText_rest htoken)).nameTurned hturn
  | search file i =>
      rw [hat] at hstep
      dsimp only at hstep
      cases hpath : st.pp.macros (includeStr i) with
      | none =>
          rw [hpath] at hstep
          cases hstep
      | some path =>
          simp only [hpath] at hstep
          cases hfile : lib.files.lookup (path ++ chr '/' :: file) with
          | none =>
              rw [hfile] at hstep
              cases hstep
              exact ⟨h.top, h.outer, h.macros, trivial⟩
          | some source =>
              rw [hfile] at hstep
              cases hstep
              exact h.enter (hlib.lookup hfile) h.macros

end

/-! ## What is left to do -/

def weight (B D : ℕ) : List ReadText → ℕ
  | [] => 0
  | t :: ts => (2 * t.source.length + 1) * B ^ (D - ts.length) + weight B D ts

def textWork (L D : ℕ) (st : Reading) : ℕ := weight (2 * L + 2) D (st.top :: st.outer)

def work (L D : ℕ) (st : Reading) : ℕ :=
  match st.at_ with
  | .search _ _ => st.textWork L D + (2 * L + 2) ^ (D - st.outer.length)
  | _ => st.textWork L D

def paths (st : Reading) : Set ℕ :=
  match st.at_ with
  | .search _ i => {j | i ≤ j ∧ (st.pp.macros (includeStr j)).isSome}
  | _ => ∅

def Lower (L D : ℕ) (st' st : Reading) : Prop :=
  Prod.Lex (· < ·) (· < ·) (st'.work L D, st'.paths.ncard) (st.work L D, st.paths.ncard)

section

variable {lib : PpLibrary} {L D : ℕ} {type : UInt8} {text : Bytes} {st st' : Reading}

theorem room_pos (L n : ℕ) : 0 < (2 * L + 2) ^ n := Nat.pow_pos (Nat.succ_pos _)

theorem work_le (st : Reading) :
    st.work L D ≤ st.textWork L D + (2 * L + 2) ^ (D - st.outer.length) := by
  rw [work]
  cases st.at_ with
  | search file i => exact le_refl _
  | _ => exact Nat.le_add_right _ _

theorem textWork_moveTo {rest : Bytes} (hrest : rest.length < st.top.source.length) :
    (st.moveTo rest).textWork L D + 2 * (2 * L + 2) ^ (D - st.outer.length) ≤
      st.textWork L D := by
  have hmul : (2 * rest.length + 1 + 2) * (2 * L + 2) ^ (D - st.outer.length) ≤
      (2 * st.top.source.length + 1) * (2 * L + 2) ^ (D - st.outer.length) :=
    Nat.mul_le_mul_right _ (by omega)
  rw [Nat.add_mul] at hmul
  change (2 * rest.length + 1) * (2 * L + 2) ^ (D - st.outer.length) +
    weight (2 * L + 2) D st.outer + 2 * (2 * L + 2) ^ (D - st.outer.length) ≤
      (2 * st.top.source.length + 1) * (2 * L + 2) ^ (D - st.outer.length) +
        weight (2 * L + 2) D st.outer
  omega

/-- A text that is entered counts less than a character of the one around it. -/
theorem entered_lt {n d : ℕ} (hn : n ≤ L) (hd : d + 1 ≤ D) :
    (2 * n + 1) * (2 * L + 2) ^ (D - (d + 1)) < (2 * L + 2) ^ (D - d) := by
  have hpow : (2 * L + 2) ^ (D - d) = (2 * L + 2) * (2 * L + 2) ^ (D - (d + 1)) := by
    have hsub : D - d = D - (d + 1) + 1 := by omega
    rw [hsub, pow_succ, Nat.mul_comm]
  rw [hpow]
  exact Nat.mul_lt_mul_of_pos_right (by omega) (room_pos _ _)

theorem textWork_enter {call : ReadCall} {pp : PpState} (hcall : call.source.length ≤ L)
    (hdepth : st.outer.length + 1 ≤ D) :
    (st.enter call pp).textWork L D <
      st.textWork L D + (2 * L + 2) ^ (D - st.outer.length) := by
  have hlt := entered_lt hcall hdepth
  change (2 * call.source.length + 1) * (2 * L + 2) ^ (D - (st.outer.length + 1)) +
    st.textWork L D < _
  omega

theorem kept_work (h : Sized L st) (hlib : LibrarySized lib L)
    (hkept : Kept lib type text st st') (hdepth : st'.outer.length ≤ D) :
    st'.work L D ≤ st.textWork L D + (2 * L + 2) ^ (D - st.outer.length) := by
  cases hkept with
  | stored _ => exact work_le _
  | args _ _ => exact work_le _
  | value _ hvalue =>
      exact (textWork_enter (h.macros.values _ _ (substitution_value hvalue)) hdepth).le
  | file _ hfile => exact (textWork_enter (hlib.lookup hfile) hdepth).le
  | search _ => exact le_refl _
  | define _ _ => exact work_le _
  | ifdef _ => exact work_le _

theorem turned_work (h : Sized L st) (hlib : LibrarySized lib L) (hat : st.at_ = .loop)
    (hturned : Turned lib type text st st') (hdepth : st'.outer.length ≤ D) :
    if type = TT_NULL_TOKEN then st'.work L D < st.textWork L D
    else st'.work L D ≤ st.textWork L D + (2 * L + 2) ^ (D - st.outer.length) := by
  cases hturned with
  | @returned caller outer htype houter =>
      have hpos := Nat.mul_pos (Nat.succ_pos (2 * st.top.source.length))
        (room_pos L (D - st.outer.length))
      rw [if_pos htype, work, hat, textWork, textWork, houter]
      rw [houter] at hpos
      exact Nat.lt_add_of_pos_left hpos
  | passed htype =>
      rw [if_neg htype]
      exact work_le _
  | @kept lineNumber _ htype hkept =>
      rw [if_neg htype]
      have hsized :
          Sized L { st with top := { st.top with lineNumber := lineNumber, esc := false } } :=
        ⟨h.top, h.outer, h.macros, h.at_⟩
      have hwork := kept_work hsized hlib hkept hdepth
      exact hwork

/-- A token of the loops over the arguments of a macro. -/
theorem argTurn_work {name value : Bytes} {i : ℕ} (hvalue : value.length ≤ L)
    (hturn : argTurn name value i type text st = .inl st') (hdepth : st'.outer.length ≤ D) :
    st'.work L D ≤ st.textWork L D + (2 * L + 2) ^ (D - st.outer.length) := by
  obtain ⟨-, rfl | rfl | rfl⟩ := argTurn_cases hturn
  · have hless := @textWork_enter L D st (valueCall name value)
      (st.pp.put (macroArg 0) (decimal i)) hvalue hdepth
    exact hless.le
  · exact work_le _
  · exact work_le _

theorem nameTurn_work {name : Bytes} {numArgs i : ℕ}
    (hturn : nameTurn name numArgs i type text st = .inl st') :
    st'.work L D ≤ st.textWork L D + (2 * L + 2) ^ (D - st.outer.length) := by
  obtain ⟨-, rfl | rfl | ⟨arg, rfl, -⟩⟩ := nameTurn_cases hturn
  · exact work_le _
  · exact work_le _
  · exact work_le _

theorem paths_lt {file : Bytes} {i : ℕ} (h : MacrosSized L st.pp.macros)
    (hi : (st.pp.macros (includeStr i)).isSome) :
    (st.go (.search file (i + 2))).paths.ncard < (st.go (.search file i)).paths.ncard := by
  have hinjective : Function.Injective includeStr := by
    intro i j heq
    exact decimal_injective (List.append_cancel_left (List.append_cancel_right heq))
  have hfinite : (st.go (.search file i)).paths.Finite := by
    refine (h.finite.preimage hinjective.injOn).subset fun j hj => ?_
    exact hj.2
  refine Set.ncard_lt_ncard ⟨fun j hj => ⟨by have := hj.1; omega, hj.2⟩, fun hsub => ?_⟩ hfinite
  have hmem : i ∈ (st.go (.search file (i + 2))).paths := hsub ⟨le_refl i, hi⟩
  have hle : i + 2 ≤ i := hmem.1
  omega

/-- Each turn leaves less to do, as long as the texts do not pile up to more than `D`. -/
theorem step_lower (h : Sized L st) (hlib : LibrarySized lib L) (hstalls : ¬ st.Stalls)
    (hstep : st.step lib = .inl st') (hdepth : st'.outer.length ≤ D) : Lower L D st' st := by
  have hroom := room_pos L (D - st.outer.length)
  -- a token that has been taken is worth more than what its turn may add
  have htaken : ∀ {rest : Bytes}, rest.length < st.top.source.length →
      st.work L D = st.textWork L D →
      st'.work L D ≤ (st.moveTo rest).textWork L D + (2 * L + 2) ^ (D - st.outer.length) →
      Lower L D st' st := by
    intro rest hrest hwork hle
    have hmoved := @textWork_moveTo L D st rest hrest
    exact .left _ _ (by omega)
  rw [Reading.step] at hstep
  cases hat : st.at_ with
  | loop =>
      have hwork : st.work L D = st.textWork L D := by
        rw [work, hat]
      rw [hat] at hstep
      obtain ⟨type, text, rest, htoken, hturn⟩ := lex_cases hstep
      have hreturn : ¬ AtReturn (cString st.top.source) := by
        rw [Stalls, hat] at hstalls
        exact hstalls
      have hle := getTokenText_rest htoken
      have hturned := turned_work (h.moveTo hle) hlib hat (turn_cases hturn) hdepth
      by_cases hnull : type = TT_NULL_TOKEN
      · rw [if_pos hnull] at hturned
        have hmul := Nat.mul_le_mul_right ((2 * L + 2) ^ (D - st.outer.length))
          (Nat.succ_le_succ (Nat.mul_le_mul_left 2 hle))
        have hmoved : (st.moveTo rest).textWork L D ≤ st.textWork L D :=
          Nat.add_le_add_right hmul _
        exact .left _ _ (by omega)
      · rw [if_neg hnull] at hturned
        exact htaken (getTokenText_sized htoken hnull hreturn).1 hwork hturned
  | argsOpen name value =>
      have hwork : st.work L D = st.textWork L D := by
        rw [work, hat]
      rw [hat] at hstep
      obtain ⟨type, text, rest, htoken, hturn⟩ := lex_cases hstep
      by_cases hopen : type = TT_OPEN_PAREN
      · rw [if_pos hopen] at hturn
        cases hturn
        rw [hopen] at htoken
        exact htaken (open_sized htoken) hwork (work_le _)
      · rw [if_neg hopen] at hturn
        cases hturn
  | args name value i =>
      have hwork : st.work L D = st.textWork L D := by
        rw [work, hat]
      have hvalue : value.length ≤ L := by
        have := h.at_
        rw [hat] at this
        exact this.1
      rw [hat] at hstep
      obtain ⟨type, text, rest, htoken, hturn⟩ := lex_cases hstep
      have hreturn : ¬ AtReturn (cString st.top.source) := by
        rw [Stalls, hat] at hstalls
        exact hstalls
      obtain ⟨hnull, -⟩ := argTurn_cases hturn
      exact htaken (getTokenText_sized htoken hnull hreturn).1 hwork
        (argTurn_work hvalue hturn hdepth)
  | namesOpen name numArgs =>
      have hwork : st.work L D = st.textWork L D := by
        rw [work, hat]
      rw [hat] at hstep
      obtain ⟨type, text, rest, htoken, hturn⟩ := lex_cases hstep
      by_cases hopen : type = TT_OPEN_PAREN
      · rw [if_pos hopen] at hturn
        cases hturn
        rw [hopen] at htoken
        exact htaken (open_sized htoken) hwork (work_le _)
      · rw [if_neg hopen] at hturn
        cases hturn
  | names name numArgs i =>
      have hwork : st.work L D = st.textWork L D := by
        rw [work, hat]
      rw [hat] at hstep
      obtain ⟨type, text, rest, htoken, hturn⟩ := lex_cases hstep
      have hreturn : ¬ AtReturn (cString st.top.source) := by
        rw [Stalls, hat] at hstalls
        exact hstalls
      obtain ⟨hnull, -⟩ := nameTurn_cases hturn
      exact htaken (getTokenText_sized htoken hnull hreturn).1 hwork (nameTurn_work hturn)
  | search file i =>
      have hwork : st.work L D = st.textWork L D + (2 * L + 2) ^ (D - st.outer.length) := by
        rw [work, hat]
      rw [hat] at hstep
      dsimp only at hstep
      cases hpath : st.pp.macros (includeStr i) with
      | none =>
          rw [hpath] at hstep
          cases hstep
      | some path =>
          simp only [hpath] at hstep
          cases hfile : lib.files.lookup (path ++ chr '/' :: file) with
          | none =>
              rw [hfile] at hstep
              cases hstep
              have hsame : st = st.go (.search file i) := by
                rw [go, ← hat]
              have hpaths : (st.go (.search file (i + 2))).paths.ncard < st.paths.ncard := by
                rw [congrArg paths hsame]
                exact paths_lt h.macros (by rw [hpath]; rfl)
              have heq : (st.go (.search file (i + 2))).work L D = st.work L D := by
                rw [hwork]
                rfl
              rw [Lower, heq]
              exact .right _ hpaths
          | some source =>
              rw [hfile] at hstep
              cases hstep
              have hless := @textWork_enter L D st _ (st.pp.saveLine (path ++ chr '/' :: file) 1)
                (hlib.lookup hfile : (fileCall (path ++ chr '/' :: file) source).source.length ≤ L)
                hdepth
              refine .left _ _ ?_
              rw [hwork]
              exact hless

end

/-! ## Texts inside of texts -/

/-- How often a text is being read. -/
def timesRead (text : Bytes) (st : Reading) : ℕ :=
  ((st.top :: st.outer).map ReadText.text).count text

instance : Finite UInt8 := Finite.of_injective UInt8.toFin fun _ _ => UInt8.toFin_inj.1

/-- There are finitely many texts of a length, so that none of them is read often only if few are
read. -/
theorem length_le_of_count {L k : ℕ} {texts : List Bytes} (hlength : ∀ text ∈ texts, text.length ≤ L)
    (hcount : ∀ text, texts.count text ≤ k) :
    texts.length ≤ (List.finite_length_le UInt8 L).toFinset.card * k := by
  have hbeq : (instBEqOfDecidableEq : BEq Bytes) = List.instBEq := lawful_beq_subsingleton _ _
  calc texts.length = ∑ text ∈ texts.toFinset, texts.count text := by
        rw [← List.sum_toFinset_count_eq_length texts, hbeq]
    _ ≤ texts.toFinset.card * k := Finset.sum_le_card_nsmul _ _ _ fun text _ => hcount text
    _ ≤ (List.finite_length_le UInt8 L).toFinset.card * k := by
        refine Nat.mul_le_mul_right k (Finset.card_le_card fun text hmem => ?_)
        rw [Set.Finite.mem_toFinset]
        exact hlength text (List.mem_toFinset.1 hmem)

/-! ## The whole reading -/

section

variable {lib : PpLibrary} {st : Reading}

def readingOf (lib : PpLibrary) (args : ReadArgs) (skipFlag : Bool) : Option Reading := do
  let macros ← switchMacros 0 args.switches fun _ => none
  let file := args.file.getD (cstr "program")
  let source ← lib.files.lookup file
  return start file source (!args.switches.isEmpty) ⟨[], skipFlag, macros⟩

def Ends (lib : PpLibrary) (st : Reading) : Prop :=
  ∃ r, Halting.Results (step lib) st r ∧ r ≠ .overrun

theorem MacrosSized.mono {L L' : ℕ} {macros : Macros} (h : MacrosSized L macros) (hle : L ≤ L') :
    MacrosSized L' macros :=
  ⟨fun name value hvalue => (h.values name value hvalue).trans hle, h.finite⟩

theorem switchMacros_sized {switches : List ReadSwitch} {num : ℕ} {macros macros' : Macros}
    (h : ∃ L, MacrosSized L macros) (hswitches : switchMacros num switches macros = some macros') :
    ∃ L, MacrosSized L macros' := by
  have hput : ∀ {macros : Macros} (name value : Bytes), (∃ L, MacrosSized L macros) →
      ∃ L, MacrosSized L (Function.update macros name (some value)) := by
    rintro macros name value ⟨L, hL⟩
    exact ⟨max L value.length, (hL.mono (le_max_left _ _)).put (le_max_right _ _)⟩
  induction switches generalizing num macros with
  | nil =>
      rw [switchMacros] at hswitches
      cases hswitches
      exact h
  | cons switch switches ih =>
      cases switch with
      | include_ path =>
          rw [switchMacros] at hswitches
          by_cases hpath : path = []
          · rw [if_pos hpath] at hswitches
            cases hswitches
          · rw [if_neg hpath] at hswitches
            exact ih (hput _ _ h) hswitches
      | define_ name value =>
          rw [switchMacros] at hswitches
          by_cases hname : name = []
          · rw [if_pos hname] at hswitches
            cases hswitches
          · rw [if_neg hname] at hswitches
            exact ih (hput _ _ h) hswitches
      | preprocess => exact ih h hswitches

theorem exists_librarySized (lib : PpLibrary) (n : ℕ) : ∃ L, n ≤ L ∧ LibrarySized lib L := by
  have hfiles : ∃ L, ∀ file ∈ lib.files, file.2.length ≤ L := by
    induction lib.files with
    | nil => exact ⟨0, fun _ hmem => absurd hmem List.not_mem_nil⟩
    | cons file files ih =>
        obtain ⟨L, hL⟩ := ih
        refine ⟨max L file.2.length, List.forall_mem_cons.2 ⟨le_max_right _ _, ?_⟩⟩
        exact fun file hmem => (hL file hmem).trans (le_max_left _ _)
  obtain ⟨L, hL⟩ := hfiles
  exact ⟨max n (max L 4), le_max_left _ _, (le_max_right _ _).trans (le_max_right _ _),
    fun file hmem => (hL file hmem).trans ((le_max_left _ _).trans (le_max_right _ _))⟩

theorem readingOf_sized {args : ReadArgs} {skipFlag : Bool}
    (h : readingOf lib args skipFlag = some st) : ∃ L, LibrarySized lib L ∧ Sized L st := by
  obtain ⟨macros, hmacros, h⟩ := Option.bind_eq_some_iff.1 h
  obtain ⟨source, hsource, h⟩ := Option.bind_eq_some_iff.1 h
  cases h
  have hnone : ∃ L, MacrosSized L fun _ => none := by
    refine ⟨0, ?_, Set.finite_empty.subset ?_⟩
    · rintro name value ⟨⟩
    · rintro name ⟨⟩
  obtain ⟨n, hn⟩ := switchMacros_sized hnone hmacros
  obtain ⟨L, hle, hlib⟩ := exists_librarySized lib n
  have hlength := hlib.lookup hsource
  exact ⟨L, hlib, ⟨hlength, hlength⟩, fun _ hmem => absurd hmem List.not_mem_nil, hn.mono hle,
    trivial⟩

/-- A reading that stays in the texts ends, when no text is read inside of itself too often. -/
theorem ends_of_bounded {L k : ℕ} (hlib : LibrarySized lib L) (hsized : Sized L st)
    (hstays : ∀ st', Halting.Reaches (step lib) st st' →
      st'.step lib ≠ .inr .overrun ∧ ¬ st'.Stalls)
    (hk : ∀ st', Halting.Reaches (step lib) st st' → ∀ text, st'.timesRead text ≤ k) :
    st.Ends lib := by
  have hall : ∀ st', Halting.Reaches (step lib) st st' → Sized L st' := by
    intro st' hst'
    induction hst' with
    | refl => exact hsized
    | next hreached hstep ih => exact ih.step hlib (hstays _ hreached).2 hstep
  let D := (List.finite_length_le UInt8 L).toFinset.card * k
  have hdepth : ∀ st', Halting.Reaches (step lib) st st' → st'.outer.length ≤ D := by
    intro st' hst'
    have htexts : ∀ text ∈ (st'.top :: st'.outer).map ReadText.text, text.length ≤ L := by
      intro text hmem
      obtain ⟨t, ht, rfl⟩ := List.mem_map.1 hmem
      rcases List.mem_cons.1 ht with rfl | ht
      · exact (hall st' hst').top.2
      · exact ((hall st' hst').outer t ht).2
    have hlength := length_le_of_count htexts (hk st' hst')
    rw [List.length_map, List.length_cons] at hlength
    exact Nat.le_of_succ_le hlength
  have hresult : ∃ r, Halting.Results (step lib) st r := by
    refine Halting.results_of_measure (WellFounded.prod_lex Nat.lt_wfRel.wf Nat.lt_wfRel.wf)
      (fun st => (st.work L D, st.paths.ncard)) st ?_
    intro s₁ s₂ hs₁ hstep
    exact step_lower (hall s₁ hs₁) hlib (hstays s₁ hs₁).2 hstep (hdepth s₂ (hs₁.next hstep))
  obtain ⟨r, hr⟩ := hresult
  refine ⟨r, hr, ?_⟩
  rintro rfl
  obtain ⟨last, hlast, hstep⟩ := hr
  exact (hstays last hlast).1 hstep

/-- At a carriage return alone the reading goes on for ever. -/
theorem stalls_next (h : st.Stalls) : ∃ st', st.step lib = .inl st' ∧ st'.Stalls := by
  have hread : AtReturn (cString st.top.source) → ∀ k : UInt8 → Bytes → Reading → ReadTurn,
      st.lex lib k = k TT_END_OF_LINE [] (st.moveTo (cString st.top.source)) := by
    intro hreturn k
    rw [lex, getTokenText_return hreturn]
  have hagain : cString (cString st.top.source) = cString st.top.source :=
    cString_eq_self (zero_notMem_cString _)
  rw [Stalls] at h
  rw [step]
  cases hat : st.at_ with
  | loop =>
      rw [hat] at h
      dsimp only at h ⊢
      have hstays : ∀ st' : Reading, st'.at_ = .loop →
          st'.top.source = cString st.top.source → st'.Stalls := by
        intro st' hat' hsource
        rw [Stalls, hat', hsource, hagain]
        exact h
      rw [hread h, turn, if_neg (by decide)]
      by_cases hesc : (st.moveTo (cString st.top.source)).top.esc = true
      · rw [if_pos ⟨hesc, rfl⟩]
        exact ⟨_, rfl, hstays _ hat rfl⟩
      rw [if_neg fun hand => hesc hand.1, if_neg (by decide)]
      dsimp only
      rw [if_neg (by decide), if_neg (by decide)]
      by_cases hskip : TT_END_OF_LINE = TT_COMMENT ∨
          (st.moveTo (cString st.top.source)).pp.skipFlag = true
      · rw [if_pos hskip]
        exact ⟨_, rfl, hstays _ hat rfl⟩
      · rw [if_neg hskip, keep, if_neg (by decide), if_neg (by decide), if_pos rfl,
          if_neg (by decide)]
        exact ⟨_, rfl, hstays _ hat rfl⟩
  | argsOpen name value =>
      rw [hat] at h
      exact h.elim
  | args name value i =>
      rw [hat] at h
      dsimp only at h ⊢
      rw [hread h, argTurn, if_neg (by decide), if_neg (by decide), if_neg (by decide)]
      refine ⟨_, rfl, ?_⟩
      change AtReturn (cString (cString st.top.source))
      rw [hagain]
      exact h
  | namesOpen name numArgs =>
      rw [hat] at h
      exact h.elim
  | names name numArgs i =>
      rw [hat] at h
      dsimp only at h ⊢
      rw [hread h, nameTurn, if_neg (by decide), if_neg (by decide), if_neg (by decide)]
      refine ⟨_, rfl, ?_⟩
      change AtReturn (cString (cString st.top.source))
      rw [hagain]
      exact h
  | search file i =>
      rw [hat] at h
      exact h.elim

theorem Ends.bounded (h : st.Ends lib) :
    (∀ st', Halting.Reaches (step lib) st st' → st'.step lib ≠ .inr .overrun ∧ ¬ st'.Stalls) ∧
      ∃ k, ∀ st', Halting.Reaches (step lib) st st' → ∀ text, st'.timesRead text ≤ k := by
  obtain ⟨r, hr, hne⟩ := h
  refine ⟨fun st' hst' => ⟨fun hoverrun => ?_, fun hstalls => ?_⟩, ?_⟩
  · exact hne ((hr.later hst').unique ⟨st', .refl, hoverrun⟩)
  · exact Halting.not_results_of_closed (fun _ => stalls_next) hstalls r (hr.later hst')
  · obtain ⟨k, hk⟩ := (hr.finite.image fun st' => st'.outer.length + 1).bddAbove
    refine ⟨k, fun st' hst' text => ?_⟩
    calc st'.timesRead text ≤ ((st'.top :: st'.outer).map ReadText.text).length :=
          List.count_le_length
      _ = st'.outer.length + 1 := List.length_map _
      _ ≤ k := hk ⟨st', hst', rfl⟩

/-- The reading of a program ends, exactly when it stays in the texts, does not stand at a carriage
return alone, and there is a bound on how often a text is read inside of itself. -/
theorem readProgram_ends_iff (lib : PpLibrary) (args : ReadArgs) (skipFlag : Bool) :
    (∀ st, readingOf lib args skipFlag = some st → st.Ends lib) ↔
      ∀ st, readingOf lib args skipFlag = some st →
        (∀ st', Halting.Reaches (step lib) st st' →
          st'.step lib ≠ .inr .overrun ∧ ¬ st'.Stalls) ∧
        ∃ k, ∀ st', Halting.Reaches (step lib) st st' → ∀ text, st'.timesRead text ≤ k := by
  constructor
  · intro h st hst
    exact (h st hst).bounded
  · intro h st hst
    obtain ⟨L, hlib, hsized⟩ := readingOf_sized hst
    obtain ⟨hstays, k, hk⟩ := h st hst
    exact ends_of_bounded hlib hsized hstays hk

end

section

def selfLibrary : PpLibrary :=
  ⟨fun _ => TT_UNKNOWN, fun _ => TT_UNKNOWN, [(cstr "program", cstr "#define A A\nA\n")],
    fun _ => []⟩

def selfStart : Reading :=
  start (cstr "program") (cstr "#define A A\nA\n") true ⟨[], false, fun _ => none⟩

def ReadsSelf (st : Reading) : Prop :=
  st.at_ = .loop ∧ st.top.source = cstr "A" ∧ st.top.ppFlag = true ∧ st.top.macroName = [] ∧
    st.top.esc = false ∧ st.pp.skipFlag = false ∧ st.pp.macros (cstr "-A") = none ∧
    st.pp.macros (cstr "A") = some (cstr "A")

theorem readsSelf_next {st : Reading} (h : st.ReadsSelf) :
    ∃ st', st.step selfLibrary = .inl st' ∧ st'.ReadsSelf := by
  obtain ⟨hat, hsource, hpp, hname, hesc, hskip, hlocal, hglobal⟩ := h
  have htoken : getTokenText selfLibrary true (cstr "A") = .token TT_IDENTIFIER (cstr "A") [] := rfl
  have hsubstitution : st.substitution (cstr "A") = some (cstr "A", cstr "A") := by
    have hlocalName : st.top.macroName ++ chr '-' :: cstr "A" = cstr "-A" := by
      rw [hname]
      rfl
    rw [substitution, if_pos hpp, macroOf, hlocalName, hlocal, hglobal]
    rfl
  have hstep : st.step selfLibrary = turn selfLibrary TT_IDENTIFIER (cstr "A") (st.moveTo []) := by
    rw [step, hat]
    dsimp only
    rw [lex, hpp, hsource, htoken]
  have hturn : turn selfLibrary TT_IDENTIFIER (cstr "A") (st.moveTo []) =
      keep selfLibrary TT_IDENTIFIER (cstr "A") { st.moveTo [] with
        top := { (st.moveTo []).top with lineNumber := st.top.lineNumber, esc := false } } := by
    have hline : TT_IDENTIFIER ≠ TT_END_OF_LINE := by decide
    have hkept : ¬ (TT_IDENTIFIER = TT_COMMENT ∨ (st.moveTo []).pp.skipFlag = true) := by
      rw [moveTo, hskip]
      decide
    rw [turn, if_neg (by decide), if_neg fun hand => hline hand.2, if_neg (by decide)]
    dsimp only
    rw [if_neg (by decide), if_neg (by decide), if_neg hkept, if_neg (by decide)]
    rfl
  let moved : Reading := { st.moveTo [] with
    top := { (st.moveTo []).top with lineNumber := st.top.lineNumber, esc := false } }
  have hmoved : moved.substitution (cstr "A") = some (cstr "A", cstr "A") := hsubstitution
  have hkeep : keep selfLibrary TT_IDENTIFIER (cstr "A") moved =
      .inl (moved.enter (valueCall st.top.macroName (cstr "A")) st.pp) := by
    rw [keep, if_neg (by decide), if_pos rfl, hmoved]
    rfl
  exact ⟨_, (hstep.trans hturn).trans hkeep, rfl, rfl, rfl, hname, rfl, hskip, hlocal, hglobal⟩

theorem not_always_ends :
    ¬ ∀ st, readingOf selfLibrary ⟨[.preprocess], some (cstr "program")⟩ false = some st →
      st.Ends selfLibrary := by
  intro hends
  obtain ⟨r, hr, -⟩ := hends selfStart rfl
  have hreached : Halting.Reaches (step selfLibrary) selfStart
      ((next selfLibrary)^[3] selfStart) := by
    have hgoes : ∀ k < 3, (((next selfLibrary)^[k] selfStart).step selfLibrary).isLeft = true := by
      decide +kernel
    exact .iterate fun k hk => step_next (hgoes k hk)
  have hself : ((next selfLibrary)^[3] selfStart).ReadsSelf := by
    unfold ReadsSelf
    decide +kernel
  exact Halting.not_results_of_closed (fun _ => readsSelf_next) hself r (hr.later hreached)

end

end Reading

end ScOpen
