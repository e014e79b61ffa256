import ScOpen.ParseFunction

/-!
# Files of bytes as hexadecimal texts

In binary mode `import` makes two digits of each byte of a file, and `export` a byte of each two
characters of a text. The loop of `export` looks for the terminator of the text at every second
character only.
-/

namespace ScOpen.Expression

/-! ## The functions -/

def hexDigitValue? (c : UInt8) : Option ℕ :=
  if chr 'a' ≤ c ∧ c ≤ chr 'f' then some (c.toNat - 87) else hexValue? c

def strtol16 (text : Bytes) : ℤ :=
  let p := (cString text).dropWhile isSpace
  let sign := firstByte p = chr '-' ∨ firstByte p = chr '+'
  let q := if sign then p.tail else p
  let hex := firstByte q = chr '0' ∧ (firstByte q.tail = chr 'x' ∨ firstByte q.tail = chr 'X')
  let digits := (if hex then q.drop 2 else q).takeWhile fun c => (hexDigitValue? c).isSome
  let v : ℤ := digits.foldl (fun v c => 16 * v + (hexDigitValue? c).getD 0) 0
  if firstByte p = chr '-' then -v else v

/-- The loop of `TT_EXPORT` over the memory from `p` on: what is written to the file. `none` when it
reads behind the memory that is given. -/
def exportLoop (flag : Bool) : Bytes → Option Bytes
  | [] => none
  | [c] => if c = 0 then some [] else none
  | c :: d :: p =>
      if c = 0 then some []
      else if flag then (exportLoop flag p).map (UInt8.ofInt (strtol16 [c, d]) :: ·)
      else (exportLoop flag (d :: p)).map (c :: ·)

def binaryMode (mode : Bytes) : Bool := chr 'b' ∈ cString mode

/-- `TT_EXPORT` in `solve_function()`, once its file is open: what is written to it. Behind the
characters of the text stands its terminator. -/
def solveExport (arg0 arg1 : Bytes) : Option Bytes := exportLoop (binaryMode arg1) (arg0 ++ [0])

/-- What a turn of the loop of `TT_IMPORT` appends for a character. -/
def importCharacter (flag : Bool) (character : UInt8) : Bytes :=
  if flag then [hexDigit (character.toNat / 16), hexDigit (character.toNat % 16)] else [character]

/-- `TT_IMPORT` in `solve_function()`, where `file` is what `fopen()` finds and `put` is
`variable_put()` for `VT_USER`. -/
def solveImport {σ : Type} (put : Bytes → Bytes → ℕ → σ → σ) (file : Option Bytes)
    (arg0 arg1 : Bytes) (user : σ) : FunctionResult σ :=
  match file with
  | none => ⟨1, [], none, user⟩
  | some file =>
      let value := file.flatMap (importCharacter (binaryMode arg1))
      ⟨0, intText (int32 (file.length % 2 ^ 32 : ℕ)), some .number,
        put (cString arg0) value value.length user⟩

/-! ## Digits -/

def IsHexDigit (c : UInt8) : Prop := (hexDigitValue? c).isSome

def digitPairs : Bytes → Bytes
  | c :: d :: text =>
      UInt8.ofNat (16 * (hexDigitValue? c).getD 0 + (hexDigitValue? d).getD 0) :: digitPairs text
  | _ => []

section

variable {c d : UInt8}

theorem IsHexDigit.ne (hc : IsHexDigit c) (hd : hexDigitValue? d = none) : c ≠ d := by
  rintro rfl
  rw [IsHexDigit, hd] at hc
  cases hc

theorem hexDigitValue?_of_lt (h : c < chr '0') : hexDigitValue? c = none := by
  have hlt : c.toNat < 48 := h
  have hlower : ¬(chr 'a' ≤ c ∧ c ≤ chr 'f') := fun ⟨hle, _⟩ => by
    have hle' : 97 ≤ c.toNat := hle
    omega
  have hupper : ¬(chr 'A' ≤ c ∧ c ≤ chr 'F') := fun ⟨hle, _⟩ => by
    have hle' : 65 ≤ c.toNat := hle
    omega
  have hdigit : ¬IsDigit c := fun hc => by
    have := (isDigit_iff c).1 hc
    omega
  rw [hexDigitValue?, if_neg hlower, hexValue?, if_neg hdigit, if_neg hupper]

theorem IsHexDigit.not_isSpace (hc : IsHexDigit c) : isSpace c = false := by
  by_contra hspace
  have hlt : c.toNat < 48 := by
    rcases of_decide_eq_true (eq_true_of_ne_false hspace) with rfl | ⟨-, hle⟩
    · decide
    · have hle' : c.toNat ≤ 13 := hle
      omega
  rw [IsHexDigit, hexDigitValue?_of_lt hlt] at hc
  cases hc

theorem strtol16_pair (hc : IsHexDigit c) (hd : IsHexDigit d) :
    strtol16 [c, d] = (16 * (hexDigitValue? c).getD 0 + (hexDigitValue? d).getD 0 : ℕ) := by
  have hc0 : c ≠ 0 := hc.ne (by decide)
  have hd0 : d ≠ 0 := hd.ne (by decide)
  have hminus : c ≠ chr '-' := hc.ne (by decide)
  have hplus : c ≠ chr '+' := hc.ne (by decide)
  have hx : d ≠ chr 'x' := hd.ne (by decide)
  have hX : d ≠ chr 'X' := hd.ne (by decide)
  have htext : cString [c, d] = [c, d] := cString_eq_self (by simp [hc0.symm, hd0.symm])
  have hspace : [c, d].dropWhile isSpace = [c, d] :=
    List.dropWhile_cons_of_neg (by rw [hc.not_isSpace]; exact Bool.false_ne_true)
  have hdigits : [c, d].takeWhile (fun c => (hexDigitValue? c).isSome) = [c, d] := by
    rw [List.takeWhile_eq_self_iff]
    intro b hb
    rcases List.mem_pair.1 hb with rfl | rfl
    · exact hc
    · exact hd
  simp only [strtol16, htext, hspace, firstByte, List.headD_cons, List.tail_cons, hminus, hplus,
    hx, hX, or_self, and_false, if_false, hdigits]
  simp

theorem exportLoop_pair (hc : IsHexDigit c) (hd : IsHexDigit d) (p : Bytes) :
    exportLoop true (c :: d :: p) = (exportLoop true p).map
      (UInt8.ofNat (16 * (hexDigitValue? c).getD 0 + (hexDigitValue? d).getD 0) :: ·) := by
  have hc0 : c ≠ 0 := hc.ne (by decide)
  rw [exportLoop, if_neg hc0, if_pos rfl, strtol16_pair hc hd, ofInt_natCast]

end

/-- The loop comes to the terminator of a text of pairs, and over that of any other text. -/
theorem exportLoop_text {text : Bytes} (htext : ∀ c ∈ text, IsHexDigit c) :
    exportLoop true (text ++ [0]) = if Even text.length then some (digitPairs text) else none := by
  fun_induction digitPairs text with
  | case1 c d text ih =>
      have hc := htext c List.mem_cons_self
      have hd := htext d (List.mem_cons_of_mem _ List.mem_cons_self)
      have hrest := ih fun b hb => htext b (List.mem_cons_of_mem _ (List.mem_cons_of_mem _ hb))
      have heven : Even (c :: d :: text).length ↔ Even text.length := by
        rw [List.length_cons, List.length_cons, Nat.even_add_one, Nat.even_add_one, not_not]
      rw [List.cons_append, List.cons_append, exportLoop_pair hc hd, hrest]
      by_cases h : Even text.length
      · rw [if_pos h, if_pos (heven.2 h)]
        rfl
      · rw [if_neg h, if_neg (mt heven.1 h)]
        rfl
  | case2 text hshort =>
      rcases text with _ | ⟨c, _ | ⟨d, text⟩⟩
      · rfl
      · have hc0 : c ≠ 0 := (htext c List.mem_cons_self).ne (by decide)
        have hodd : ¬Even [c].length := by simp
        rw [if_neg hodd, List.singleton_append, exportLoop, if_neg hc0, if_pos rfl]
        rfl
      · exact absurd rfl (hshort c d text)

/-! ## Files -/

theorem hexDigitValue?_hexDigit {a : ℕ} (ha : a < 16) : hexDigitValue? (hexDigit a) = some a := by
  revert a
  decide

theorem isHexDigit_hexDigit {a : ℕ} (ha : a < 16) : IsHexDigit (hexDigit a) := by
  rw [IsHexDigit, hexDigitValue?_hexDigit ha]
  rfl

def IsUpperDigit (c : UInt8) : Prop := ∃ a < 16, c = hexDigit a

theorem importCharacter_digits (b : UInt8) :
    importCharacter true b = [hexDigit (b.toNat / 16), hexDigit (b.toNat % 16)] := rfl

theorem byte_of_digits {a b : ℕ} (ha : a < 16) (hb : b < 16) :
    importCharacter true (UInt8.ofNat (16 * a + b)) = [hexDigit a, hexDigit b] := by
  have hnat : (UInt8.ofNat (16 * a + b)).toNat = 16 * a + b := by
    rw [UInt8.toNat_ofNat']
    omega
  have hdiv : (16 * a + b) / 16 = a := by omega
  have hmod : (16 * a + b) % 16 = b := by omega
  rw [importCharacter_digits, hnat, hdiv, hmod]

theorem import_digitPairs {text : Bytes} (htext : ∀ c ∈ text, IsUpperDigit c)
    (heven : Even text.length) : (digitPairs text).flatMap (importCharacter true) = text := by
  fun_induction digitPairs text with
  | case1 c d text ih =>
      obtain ⟨a, ha, rfl⟩ := htext c List.mem_cons_self
      obtain ⟨b, hb, rfl⟩ := htext d (List.mem_cons_of_mem _ List.mem_cons_self)
      have hrest : Even text.length := by
        rwa [List.length_cons, List.length_cons, Nat.even_add_one, Nat.even_add_one,
          not_not] at heven
      rw [List.flatMap_cons, hexDigitValue?_hexDigit ha, hexDigitValue?_hexDigit hb,
        Option.getD_some, Option.getD_some, byte_of_digits ha hb,
        ih (fun c hc => htext c (List.mem_cons_of_mem _ (List.mem_cons_of_mem _ hc))) hrest]
      rfl
  | case2 text hshort =>
      rcases text with _ | ⟨c, _ | ⟨d, text⟩⟩
      · rfl
      · exact absurd heven (by simp)
      · exact absurd rfl (hshort c d text)

theorem import_text (file : Bytes) :
    (∀ c ∈ file.flatMap (importCharacter true), IsHexDigit c) ∧
      Even (file.flatMap (importCharacter true)).length ∧
      digitPairs (file.flatMap (importCharacter true)) = file := by
  induction file with
  | nil => exact ⟨fun c hc => absurd hc List.not_mem_nil, by simp, rfl⟩
  | cons b file ih =>
      obtain ⟨hdigits, heven, hpairs⟩ := ih
      have hb := b.toNat_lt
      have hhigh : b.toNat / 16 < 16 := by omega
      have hlow : b.toNat % 16 < 16 := by omega
      rw [List.flatMap_cons, importCharacter_digits]
      refine ⟨?_, ?_, ?_⟩
      · intro c hc
        rcases List.mem_append.1 hc with hc | hc
        · rcases List.mem_pair.1 hc with rfl | rfl
          · exact isHexDigit_hexDigit hhigh
          · exact isHexDigit_hexDigit hlow
        · exact hdigits c hc
      · rw [List.length_append]
        exact even_two.add heven
      · have hbyte : 16 * (b.toNat / 16) + b.toNat % 16 = b.toNat := by omega
        change UInt8.ofNat _ :: digitPairs (file.flatMap (importCharacter true)) = _
        rw [hexDigitValue?_hexDigit hhigh, hexDigitValue?_hexDigit hlow, Option.getD_some,
          Option.getD_some, hbyte, hpairs, UInt8.ofNat_toNat]

/-- A text of digits is exported as its pairs, with no look behind its terminator, exactly when
their number is even. The file is imported as that text if its digits are upper-case, and any file
is written again when the text that it was imported as is exported. -/
theorem binary_files_right_iff {mode mode' : Bytes} (hmode : binaryMode mode = true)
    (hmode' : binaryMode mode' = true) :
    (∀ text : Bytes, (∀ c ∈ text, IsHexDigit c) →
      (solveExport text mode = some (digitPairs text) ↔ Even text.length)) ∧
    (∀ (text file : Bytes), (∀ c ∈ text, IsUpperDigit c) → Even text.length →
      solveExport text mode = some file →
      ∀ (σ : Type) (put : Bytes → Bytes → ℕ → σ → σ) (name : Bytes) (user : σ),
        (solveImport put (some file) name mode' user).user =
          put (cString name) text text.length user) ∧
    ∀ (file name : Bytes), ∃ text, solveExport text mode = some file ∧
      ∀ (σ : Type) (put : Bytes → Bytes → ℕ → σ → σ) (user : σ),
        (solveImport put (some file) name mode' user).user =
          put (cString name) text text.length user := by
  have hexport : ∀ text : Bytes, (∀ c ∈ text, IsHexDigit c) → solveExport text mode =
      if Even text.length then some (digitPairs text) else none := by
    intro text htext
    rw [solveExport, hmode, exportLoop_text htext]
  have himport : ∀ (file name : Bytes) (σ : Type) (put : Bytes → Bytes → ℕ → σ → σ) (user : σ),
      (solveImport put (some file) name mode' user).user =
        put (cString name) (file.flatMap (importCharacter true))
          (file.flatMap (importCharacter true)).length user := by
    intro file name σ put user
    simp only [solveImport, hmode']
  refine ⟨fun text htext => ?_, fun text file htext heven hfile σ put name user => ?_,
    fun file name => ⟨file.flatMap (importCharacter true), ?_, himport file name⟩⟩
  · rw [hexport text htext]
    constructor
    · intro hsome
      by_contra h
      rw [if_neg h] at hsome
      cases hsome
    · exact fun heven => if_pos heven
  · have hhex : ∀ c ∈ text, IsHexDigit c := by
      intro c hc
      obtain ⟨a, ha, rfl⟩ := htext c hc
      exact isHexDigit_hexDigit ha
    rw [hexport text hhex, if_pos heven] at hfile
    obtain rfl := Option.some.inj hfile
    rw [himport, import_digitPairs htext heven]
  · obtain ⟨hdigits, heven, hpairs⟩ := import_text file
    rw [hexport _ hdigits, if_pos heven, hpairs]

theorem isHexDigit_pair {c d : UInt8} (hc : IsHexDigit c) (hd : IsHexDigit d) :
    ∀ b ∈ [c, d], IsHexDigit b := by
  intro b hb
  rcases List.mem_pair.1 hb with rfl | rfl
  · exact hc
  · exact hd

theorem binary_files_right_pair :
    solveExport (cstr "4a") (cstr "wb") = some [74] ↔ Even 2 :=
  (@binary_files_right_iff (cstr "wb") (cstr "rb") (by decide) (by decide)).1 (cstr "4a")
    (isHexDigit_pair rfl rfl)

/-- The text `4` in binary mode -/
theorem binary_files_not_always_right :
    ¬∀ text mode : Bytes, (∀ c ∈ text, IsHexDigit c) → binaryMode mode = true →
      solveExport text mode = some (digitPairs text) := by
  intro h
  have hright := h (cstr "4") (cstr "wb") (List.forall_mem_singleton.2 rfl) (by decide)
  exact absurd hright (by decide)

end ScOpen.Expression
