import ScOpen.StoredValue
import ScOpen.SecsEncodeRight

/-!
# The text of a stored value

A value stored without arrays is printable, and it ends with a blank unless it is empty. The
conversions of numbers never use up that blank, so they stumble over it at the end of the value.
-/

namespace ScOpen

/-! ## A text that ends with a blank -/

def LeavesBlank (convert : Bytes → Bytes × ℤ) : Prop :=
  ∀ p : Bytes, p.getLast? = some (chr ' ') → p.drop (convert p).2.toNat ≠ []

/-- Such a text is never used up, so the last conversion finds nothing but blanks. -/
theorem valuesLoop_blank {convert : Bytes → Bytes × ℤ} (hconvert : LeavesBlank convert) {p : Bytes}
    (hlast : p.getLast? = some (chr ' ')) : (valuesLoop convert p).error = true := by
  induction hn : p.length using Nat.strong_induction_on generalizing p with
  | _ n ih =>
  have hne : p ≠ [] := by
    rintro rfl
    cases hlast
  have hrest := hconvert p hlast
  rw [valuesLoop, if_neg hne]
  by_cases hcnt : (convert p).2 ≤ 0
  · simp only [hcnt, if_true]
  · simp only [hcnt, if_false]
    have hpos : 0 < p.length := List.length_pos_of_ne_nil hne
    refine ih _ ?_ ?_ rfl
    · rw [List.length_drop]
      omega
    · rw [List.getLast?_drop, if_neg, hlast]
      intro hle
      exact hrest (List.drop_eq_nil_of_le hle)

/-- A conversion that ends with a character other than a blank has not used the blank. -/
theorem drop_ne_nil_of_used {head q : Bytes} {m : ℕ} (hpos : 0 < m) (hm : m ≤ q.length)
    (hused : ∀ c ∈ q.take m, c ≠ chr ' ') (hlast : (head ++ q).getLast? = some (chr ' ')) :
    (head ++ q).drop (head.length + m) ≠ [] := by
  intro hnil
  have hlen := List.drop_eq_nil_iff.1 hnil
  rw [List.length_append] at hlen
  have hall : q.take m = q := List.take_of_length_le (by omega)
  have hne : q ≠ [] := List.ne_nil_of_length_pos (by omega)
  rw [List.getLast?_append_of_ne_nil _ hne] at hlast
  rw [hall] at hused
  exact hused _ (List.mem_of_getLast? hlast) rfl

theorem ne_nil_of_getLast? {p : Bytes} {c : UInt8} (h : p.getLast? = some c) : p ≠ [] := by
  rintro rfl
  cases h

theorem digitLoop_used {α : Type} (step : α → ℕ → α) (i : α) (c2 : ℕ) (p : Bytes) :
    ∃ m, (digitLoop step i c2 p).2 = c2 + m ∧ m ≤ p.length ∧ ∀ c ∈ p.take m, IsDigit c := by
  induction p generalizing i c2 with
  | nil => exact ⟨0, rfl, le_rfl, by simp⟩
  | cons c p ih =>
      rw [digitLoop]
      split
      · rename_i hc
        obtain ⟨m, hused, hle, hdigits⟩ := ih (step i (digitValue c)) (c2 + 1)
        refine ⟨m + 1, by omega, by simpa using hle, ?_⟩
        intro c' hc'
        rw [List.take_succ_cons, List.mem_cons] at hc'
        rcases hc' with rfl | hc'
        · exact hc
        · exact hdigits c' hc'
      · exact ⟨0, rfl, Nat.zero_le _, by simp⟩

theorem usedCount_toNat {c1 c2 : ℕ} : (usedCount c1 c2).toNat = if c2 = 0 then 0 else c1 + c2 := by
  unfold usedCount
  by_cases h : c2 = 0
  · simp [h]
  · simp only [ne_eq, h, not_false_eq_true, if_true, if_false]
    omega

theorem ne_blank_of_digits {q : Bytes} (h : ∀ c ∈ q, IsDigit c) : ∀ c ∈ q, c ≠ chr ' ' :=
  fun c hc => ne_blank_of_isDigit (h c hc)

/-- A text without its blanks at the front, and how many they are. -/
theorem blanks_append (p : Bytes) :
    p.takeWhile (· = chr ' ') ++ p.dropWhile (· = chr ' ') = p := List.takeWhile_append_dropWhile

/-- Digits after the blanks and a sign leave the blank at the end. -/
theorem digits_leave_blank {α : Type} (step : α → ℕ → α) (i : α) {p blanks sign q : Bytes}
    (hp : blanks ++ sign ++ q = p) (hlast : p.getLast? = some (chr ' ')) :
    p.drop (usedCount (blanks.length + sign.length) (digitLoop step i 0 q).2).toNat ≠ [] := by
  obtain ⟨m, hused, hle, hdigits⟩ := digitLoop_used step i 0 q
  rw [hused, Nat.zero_add, usedCount_toNat]
  split
  · exact ne_nil_of_getLast? hlast
  · rename_i hm
    rw [← hp] at hlast ⊢
    rw [← List.length_append]
    exact drop_ne_nil_of_used (Nat.pos_of_ne_zero hm) hle (ne_blank_of_digits hdigits) hlast

theorem myAtou_leavesBlank (f : ℕ → Bytes) :
    LeavesBlank fun p => (f (myAtou p).1, (myAtou p).2) := by
  intro p hlast
  have hp : p.takeWhile (· = chr ' ') ++ [] ++ p.dropWhile (· = chr ' ') = p := by
    rw [List.append_nil, blanks_append]
  exact digits_leave_blank _ _ hp hlast

theorem myAtoi_leavesBlank (f : ℤ → Bytes) :
    LeavesBlank fun p => (f (myAtoi p).1, (myAtoi p).2) := by
  intro p hlast
  simp only [myAtoi]
  by_cases hsign : firstByte (p.dropWhile (· = chr ' ')) = chr '-'
  · have hp : p.takeWhile (· = chr ' ') ++ [chr '-'] ++ (p.dropWhile (· = chr ' ')).tail = p := by
      conv_rhs => rw [← blanks_append p]
      cases hq : p.dropWhile (· = chr ' ') with
      | nil =>
          rw [hq] at hsign
          exact absurd hsign (by decide)
      | cons c q =>
          rw [hq] at hsign
          rw [← hsign, List.append_assoc]
          rfl
    simp only [hsign, if_true]
    exact digits_leave_blank _ _ hp hlast
  · have hp : p.takeWhile (· = chr ' ') ++ [] ++ p.dropWhile (· = chr ' ') = p := by
      rw [List.append_nil, blanks_append]
    simp only [hsign, if_false]
    exact digits_leave_blank _ _ hp hlast

theorem hexValue?_blank : hexValue? (chr ' ') = none := by decide

theorem atobyteLoop_used (j i c2 : ℕ) (p : Bytes) :
    ∃ m, (atobyteLoop j i c2 p).2 = c2 + m ∧ m ≤ p.length ∧ ∀ c ∈ p.take m, c ≠ chr ' ' := by
  induction j generalizing i c2 p with
  | zero => exact ⟨0, rfl, Nat.zero_le _, by simp⟩
  | succ j ih =>
      cases p with
      | nil => exact ⟨0, rfl, le_rfl, by simp⟩
      | cons c p =>
          rw [atobyteLoop]
          cases hc : hexValue? c with
          | none => exact ⟨0, rfl, Nat.zero_le _, by simp⟩
          | some d =>
              obtain ⟨m, hused, hle, hblank⟩ := ih ((i * 16 + d) % 256) (c2 + 1) p
              refine ⟨m + 1, by simp only [hused]; omega, by simpa using hle, ?_⟩
              intro c' hc'
              rw [List.take_succ_cons, List.mem_cons] at hc'
              rcases hc' with rfl | hc'
              · rintro rfl
                rw [hexValue?_blank] at hc
                cases hc
              · exact hblank c' hc'

theorem myAtobyte_leavesBlank (f : ℕ → Bytes) :
    LeavesBlank fun p => (f (myAtobyte p).1, (myAtobyte p).2) := by
  intro p hlast
  obtain ⟨m, hused, hle, hblank⟩ := atobyteLoop_used 2 0 0 (p.dropWhile (· = chr ' '))
  have hcnt : (myAtobyte p).2.toNat =
      if m = 0 then 0 else (p.takeWhile (· = chr ' ')).length + m := by
    simp only [myAtobyte]
    rw [usedCount_toNat, hused, Nat.zero_add]
  simp only [hcnt]
  split
  · exact ne_nil_of_getLast? hlast
  · rename_i hm
    rw [← blanks_append p] at hlast
    have hdrop := drop_ne_nil_of_used (Nat.pos_of_ne_zero hm) hle hblank hlast
    rwa [blanks_append] at hdrop

/-! ## The values of the types -/

/-- The value of an item of the type can be stored as text: all but lists and floats. -/
def SecsType.StoresText : SecsType → Prop
  | .list => False
  | .elements .float4 => False
  | .elements .float8 => False
  | _ => True

/-- What `evaluate_token()` makes of a token that is one variable: a byte `FF` in the value comes
out as a dollar sign. -/
def variableText (value : Bytes) : Bytes := value.map fun b => if b = 0xFF then chr '$' else b

theorem convertUnsigned_leavesBlank (width : ℕ) :
    LeavesBlank fun p => (swap (leBytes width (myAtou p).1), (myAtou p).2) :=
  myAtou_leavesBlank fun n => swap (leBytes width n)

theorem convertSigned_leavesBlank (width : ℕ) :
    LeavesBlank fun p =>
      (swap (leBytes width ((myAtoi p).1 % 256 ^ width).toNat), (myAtoi p).2) :=
  myAtoi_leavesBlank fun i => swap (leBytes width (i % 256 ^ width).toNat)

/-- The types whose values go through a conversion of numbers: all with elements but booleans. -/
theorem branchOf_number (scan : FloatScan) {t : ElementType} (ht : (SecsType.elements t).StoresText)
    (hbool : t ≠ .boolean) :
    ∃ minus convert, branchOf scan (SecsType.elements t).word =
      .item (.elements t) minus (fun text => valuesLoop convert (cString text)) ∧
        LeavesBlank convert := by
  cases t with
  | binary => exact ⟨_, _, rfl, myAtobyte_leavesBlank fun n => [UInt8.ofNat n]⟩
  | boolean => exact (hbool rfl).elim
  | unsigned1 => exact ⟨_, _, rfl, convertUnsigned_leavesBlank 1⟩
  | unsigned2 => exact ⟨_, _, rfl, convertUnsigned_leavesBlank 2⟩
  | unsigned4 => exact ⟨_, _, rfl, convertUnsigned_leavesBlank 4⟩
  | unsigned8 => exact ⟨_, _, rfl, convertUnsigned_leavesBlank 8⟩
  | signed1 => exact ⟨_, _, rfl, convertSigned_leavesBlank 1⟩
  | signed2 => exact ⟨_, _, rfl, convertSigned_leavesBlank 2⟩
  | signed4 => exact ⟨_, _, rfl, convertSigned_leavesBlank 4⟩
  | signed8 => exact ⟨_, _, rfl, convertSigned_leavesBlank 8⟩
  | float4 => exact ht.elim
  | float8 => exact ht.elim

/-! ## Printable texts -/

def IsPrintable (c : UInt8) : Prop := 32 ≤ c.toNat ∧ c.toNat < 127

instance (c : UInt8) : Decidable (IsPrintable c) := inferInstanceAs (Decidable (_ ∧ _))

theorem isPrintable_of_isDigit {c : UInt8} (hc : IsDigit c) : IsPrintable c := by
  have hrange := (isDigit_iff c).1 hc
  exact ⟨by omega, by omega⟩

theorem isPrintable_itoaLoop {num : ℤ} {p : Bytes} (hp : ∀ c ∈ p, IsPrintable c) :
    ∀ c ∈ itoaLoop num p, IsPrintable c := by
  induction hn : num.natAbs using Nat.strong_induction_on generalizing num p with
  | _ n ih =>
  have hdigit : IsPrintable (UInt8.ofInt (48 + num.tmod 10)) := by
    have hlo : -10 < num.tmod 10 := Int.lt_tmod_of_pos num (by decide)
    have hhi : num.tmod 10 < 10 := Int.tmod_lt_of_pos num (by decide)
    obtain ⟨k, hk⟩ := Int.eq_ofNat_of_zero_le (a := 48 + num.tmod 10) (by omega)
    rw [hk, ofInt_natCast, IsPrintable, UInt8.toNat_ofNat']
    omega
  have hnext : ∀ c ∈ UInt8.ofInt (48 + num.tmod 10) :: p, IsPrintable c :=
    List.forall_mem_cons.2 ⟨hdigit, hp⟩
  rw [itoaLoop]
  split
  · exact hnext
  · rename_i hdiv
    refine ih _ ?_ hnext rfl
    have hpos : num ≠ 0 := by
      rintro rfl
      exact hdiv rfl
    rw [← hn, Int.natAbs_tdiv]
    exact Nat.div_lt_self (by omega) (by decide)

theorem isPrintable_myItoa (num : ℤ) : ∀ c ∈ myItoa num, IsPrintable c := by
  unfold myItoa
  split
  · exact List.forall_mem_cons.2 ⟨by decide, isPrintable_itoaLoop (by simp)⟩
  · exact isPrintable_itoaLoop (by simp)

theorem isPrintable_myUtoa (num : ℕ) : ∀ c ∈ myUtoa num, IsPrintable c := by
  rw [myUtoa_eq]
  exact fun c hc => isPrintable_of_isDigit (isDigit_of_mem_decimal hc)

theorem isPrintable_hexDigit {d : ℕ} (hd : d < 16) : IsPrintable (hexDigit d) := by
  unfold hexDigit
  split
  · rw [IsPrintable, UInt8.toNat_ofNat']
    omega
  · rw [IsPrintable, UInt8.toNat_ofNat']
    omega

theorem isPrintable_myBtoh (num : UInt8) : ∀ c ∈ myBtoh num, IsPrintable c := by
  have hlt : num.toNat < 256 := num.toNat_lt
  intro c hc
  rcases List.mem_cons.1 hc with rfl | hc
  · exact isPrintable_hexDigit (by omega)
  · rw [List.mem_singleton.1 hc]
    exact isPrintable_hexDigit (Nat.mod_lt _ (by omega))

theorem plainKind_printable (fl : FloatText) {t : ElementType}
    (ht : (SecsType.elements t).StoresText) (p : Bytes) :
    ∀ c ∈ (t.plainKind fl).value p, IsPrintable c := by
  cases t with
  | binary => exact isPrintable_myBtoh _
  | boolean =>
      intro c hc
      simp only [ElementType.plainKind, plainBoolean] at hc
      split at hc
      · rw [List.mem_singleton.1 hc]
        decide
      · rw [List.mem_singleton.1 hc]
        decide
  | unsigned1 => exact isPrintable_myUtoa _
  | unsigned2 => exact isPrintable_myUtoa _
  | unsigned4 => exact isPrintable_myUtoa _
  | unsigned8 => exact isPrintable_myUtoa _
  | signed1 =>
      simp only [ElementType.plainKind, plainSigned1, plainNumber]
      exact isPrintable_myItoa _
  | signed2 =>
      simp only [ElementType.plainKind, plainSigned2, plainNumber]
      exact isPrintable_myItoa _
  | signed4 =>
      simp only [ElementType.plainKind, plainSigned4, plainNumber]
      exact isPrintable_myItoa _
  | signed8 =>
      simp only [ElementType.plainKind, plainSigned8, plainNumber]
      exact isPrintable_myItoa _
  | float4 => exact ht.elim
  | float8 => exact ht.elim

theorem isPrintable_joinedElements {k : PlainKind} (hk : ∀ p, ∀ c ∈ k.value p, IsPrintable c)
    (n : ℕ) (p : Bytes) : ∀ c ∈ joinedElements k n p, IsPrintable c := by
  induction n generalizing p with
  | zero => simp [joinedElements]
  | succ n ih =>
      intro c hc
      simp only [joinedElements, List.mem_append] at hc
      rcases hc with (hc | hc) | hc
      · exact hk _ c hc
      · rw [List.mem_singleton.1 hc]
        decide
      · exact ih _ c hc

theorem getLast?_joinedElements (k : PlainKind) {n : ℕ} (hn : n ≠ 0) (p : Bytes) :
    (joinedElements k n p).getLast? = some (chr ' ') := by
  induction n generalizing p with
  | zero => exact (hn rfl).elim
  | succ n ih =>
      rw [joinedElements]
      by_cases hzero : n = 0
      · subst hzero
        rw [joinedElements, List.append_nil, List.getLast?_append_of_ne_nil _ (by simp [cstr])]
        rfl
      · have hlast := ih hzero (p.drop k.width)
        rwa [List.getLast?_append_of_ne_nil _ (ne_nil_of_getLast? hlast)]

/-- A printable text comes through a variable and through the end of a C string unchanged. -/
theorem variableText_printable {value : Bytes} (h : ∀ c ∈ value, IsPrintable c) :
    variableText value = value ∧ cString value = value := by
  constructor
  · conv_rhs => rw [← List.map_id value]
    refine List.map_congr_left fun c hc => ?_
    have hne : c ≠ 0xFF := by
      rintro rfl
      exact absurd (h _ hc) (by decide)
    simp [hne]
  · apply cString_eq_self
    intro hzero
    exact absurd (h _ hzero) (by decide)

end ScOpen
