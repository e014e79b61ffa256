import ScOpen.CTypes

/-!
# Numbers and their texts

The conversions of the utility module. `decimal` and `decimalValue` are the plain notions:
the decimal digits of a natural number and the number that a text of digits denotes. The
hand-written conversions are compared with them.
-/

namespace ScOpen

def digit (d : ℕ) : UInt8 := UInt8.ofNat (48 + d)

def IsDigit (c : UInt8) : Prop := 48 ≤ c ∧ c ≤ 57

instance (c : UInt8) : Decidable (IsDigit c) := inferInstanceAs (Decidable (_ ∧ _))

def digitValue (c : UInt8) : ℕ := c.toNat - 48

def decimal (n : ℕ) : Bytes :=
  if n < 10 then [digit n] else decimal (n / 10) ++ [digit (n % 10)]

def decimalValue (ds : Bytes) : ℕ := ds.foldl (fun v c => 10 * v + digitValue c) 0

theorem toNat_digit {d : ℕ} (hd : d < 10) : (digit d).toNat = 48 + d := by
  rw [digit, UInt8.toNat_ofNat']
  omega

theorem isDigit_iff (c : UInt8) : IsDigit c ↔ 48 ≤ c.toNat ∧ c.toNat ≤ 57 := Iff.rfl

theorem isDigit_digit {d : ℕ} (hd : d < 10) : IsDigit (digit d) := by
  rw [isDigit_iff, toNat_digit hd]
  omega

theorem digitValue_digit {d : ℕ} (hd : d < 10) : digitValue (digit d) = d := by
  rw [digitValue, toNat_digit hd]
  omega

theorem decimalValue_append_singleton (ds : Bytes) (c : UInt8) :
    decimalValue (ds ++ [c]) = 10 * decimalValue ds + digitValue c := by
  simp [decimalValue]

theorem decimal_ne_nil (n : ℕ) : decimal n ≠ [] := by
  rw [decimal]
  split <;> simp

theorem isDigit_of_mem_decimal {n : ℕ} {c : UInt8} (hc : c ∈ decimal n) : IsDigit c := by
  induction n using Nat.strong_induction_on with
  | _ n ih =>
  rw [decimal] at hc
  split at hc
  · rename_i hlt
    rw [List.mem_singleton.1 hc]
    exact isDigit_digit hlt
  · rcases List.mem_append.1 hc with hc | hc
    · exact ih (n / 10) (by omega) hc
    · rw [List.mem_singleton.1 hc]
      exact isDigit_digit (Nat.mod_lt _ (by decide))

theorem decimalValue_decimal (n : ℕ) : decimalValue (decimal n) = n := by
  induction n using Nat.strong_induction_on with
  | _ n ih =>
  rw [decimal]
  split
  · rename_i hlt
    have h := decimalValue_append_singleton [] (digit n)
    rw [digitValue_digit hlt] at h
    exact h.trans (by simp [decimalValue])
  · rw [decimalValue_append_singleton, ih (n / 10) (by omega),
      digitValue_digit (Nat.mod_lt _ (by decide))]
    omega

/-! ## Numbers to text -/

/-- The `do .. while` loop of `my_utoa()`; `p` holds the digits already written. -/
def utoaLoop (num : ℕ) (p : Bytes) : Bytes :=
  let p := digit (num % 10) :: p
  if num / 10 = 0 then p else utoaLoop (num / 10) p

def myUtoa (num : ℕ) : Bytes := utoaLoop num []

/-- The loop of `my_itoa()`, with the truncated division and remainder of C. -/
def itoaLoop (num : ℤ) (p : Bytes) : Bytes :=
  let p := UInt8.ofInt (48 + num.tmod 10) :: p
  if num.tdiv 10 = 0 then p else itoaLoop (num.tdiv 10) p
termination_by num.natAbs
decreasing_by
  have hpos : 0 < num.natAbs := by
    by_contra hzero
    have hnum : num = 0 := by omega
    simp [hnum] at *
  rw [Int.natAbs_tdiv]
  exact Nat.div_lt_self hpos (by decide)

/-- `my_itoa()`: the sign is taken off first, by a negation that wraps on `int64_t`. -/
def myItoa (num : ℤ) : Bytes :=
  if num < 0 then chr '-' :: itoaLoop (Int.bmod (-num) (2 ^ 64)) [] else itoaLoop num []

def myItoaFmt1 (num : ℤ) : Bytes := chr '[' :: (myItoa num ++ [chr ']'])

def hexDigit (d : ℕ) : UInt8 := if d < 10 then UInt8.ofNat (48 + d) else UInt8.ofNat (55 + d)

def myBtoh (num : UInt8) : Bytes := [hexDigit (num.toNat / 16), hexDigit (num.toNat % 16)]

def myBtohFmt1 (num : UInt8) : Bytes := myBtoh num ++ cstr " (" ++ myUtoa num.toNat ++ cstr ")"

theorem utoaLoop_eq (num : ℕ) (p : Bytes) : utoaLoop num p = decimal num ++ p := by
  induction num using Nat.strong_induction_on generalizing p with
  | _ num ih =>
  rw [utoaLoop, decimal]
  by_cases hlt : num < 10
  · have hdiv : num / 10 = 0 := by omega
    simp [hdiv, hlt, Nat.mod_eq_of_lt hlt]
  · have hdiv : num / 10 ≠ 0 := by omega
    simp [hdiv, hlt, ih (num / 10) (by omega)]

theorem myUtoa_eq (num : ℕ) : myUtoa num = decimal num := by
  rw [myUtoa, utoaLoop_eq, List.append_nil]

theorem ofInt_natCast (n : ℕ) : UInt8.ofInt n = UInt8.ofNat n := by
  have hmod : ((n : ℤ) % 2 ^ 8).toNat = n % 256 := by omega
  rw [UInt8.ofInt, hmod]
  apply UInt8.toNat.inj
  rw [UInt8.toNat_ofNat', UInt8.toNat_ofNat', Nat.mod_mod]

theorem itoaLoop_natCast (num : ℕ) (p : Bytes) : itoaLoop num p = decimal num ++ p := by
  induction num using Nat.strong_induction_on generalizing p with
  | _ num ih =>
  have hdiv : (num : ℤ).tdiv 10 = ((num / 10 : ℕ) : ℤ) := rfl
  have hdigit : UInt8.ofInt (48 + (num : ℤ).tmod 10) = digit (num % 10) := by
    have hmod : (num : ℤ).tmod 10 = ((num % 10 : ℕ) : ℤ) := rfl
    rw [hmod, ← Nat.cast_ofNat, ← Nat.cast_add]
    exact ofInt_natCast _
  rw [itoaLoop, decimal, hdiv, hdigit]
  by_cases hlt : num < 10
  · have hzero : num / 10 = 0 := by omega
    simp [hzero, hlt, Nat.mod_eq_of_lt hlt]
  · have hzero : ((num / 10 : ℕ) : ℤ) ≠ 0 := by omega
    simp only [hzero, if_false, hlt, ih (num / 10) (by omega), List.append_assoc,
      List.singleton_append]

theorem myItoa_natCast (num : ℕ) : myItoa num = decimal num := by
  rw [myItoa, if_neg (by omega), itoaLoop_natCast, List.append_nil]

theorem myItoa_digit {num : ℕ} (h : num < 10) : myItoa num = [digit num] := by
  rw [myItoa_natCast, decimal, if_pos h]

theorem myItoa_neg {num : ℕ} (hpos : 0 < num) (hlt : num < 2 ^ 63) :
    myItoa (-num) = chr '-' :: decimal num := by
  have hwrap : Int.bmod (- -(num : ℤ)) (2 ^ 64) = num := by
    rw [neg_neg]
    exact Int.bmod_eq_of_le (by omega) (by omega)
  rw [myItoa, if_pos (by omega), hwrap, itoaLoop_natCast, List.append_nil]

/-! ## Text to numbers -/

/-- The loop over the digits at the start of a text; `c2` counts them. -/
def digitLoop {α : Type} (step : α → ℕ → α) (i : α) (c2 : ℕ) : Bytes → α × ℕ
  | [] => (i, c2)
  | c :: p => if IsDigit c then digitLoop step (step i (digitValue c)) (c2 + 1) p else (i, c2)

/-- `*cnt`: how many characters a conversion used, -1 when there was no number. -/
def usedCount (c1 c2 : ℕ) : ℤ := if c2 ≠ 0 then c1 + c2 else -1

/-- `my_atoi()`. The number is kept in an `int` and wraps there. -/
def myAtoi (p : Bytes) : ℤ × ℤ :=
  let blanks := p.takeWhile (· = chr ' ')
  let p := p.dropWhile (· = chr ' ')
  let sign := firstByte p = chr '-'
  let p := if sign then p.tail else p
  let (i, c2) := digitLoop (fun i d => Int.bmod (i * 10 + d) (2 ^ 32)) 0 0 p
  (if sign then Int.bmod (-i) (2 ^ 32) else i,
    usedCount (blanks.length + if sign then 1 else 0) c2)

/-- `my_atou()`. The number is kept in a `uint64_t`. -/
def myAtou (p : Bytes) : ℕ × ℤ :=
  let blanks := p.takeWhile (· = chr ' ')
  let p := p.dropWhile (· = chr ' ')
  let (i, c2) := digitLoop (fun i d => (i * 10 + d) % 2 ^ 64) 0 0 p
  (i, usedCount blanks.length c2)

def hexValue? (c : UInt8) : Option ℕ :=
  if IsDigit c then some (c.toNat - 48)
  else if chr 'A' ≤ c ∧ c ≤ chr 'F' then some (c.toNat - 55)
  else none

/-- The loop of `my_atobyte()`, which takes at most `j` digits. -/
def atobyteLoop : ℕ → ℕ → ℕ → Bytes → ℕ × ℕ
  | 0, i, c2, _ => (i, c2)
  | j + 1, i, c2, p =>
      match p with
      | [] => (i, c2)
      | c :: p =>
          match hexValue? c with
          | some d => atobyteLoop j ((i * 16 + d) % 256) (c2 + 1) p
          | none => (i, c2)

def myAtobyte (p : Bytes) : ℕ × ℤ :=
  let blanks := p.takeWhile (· = chr ' ')
  let p := p.dropWhile (· = chr ' ')
  let (i, c2) := atobyteLoop 2 0 0 p
  (i, usedCount blanks.length c2)

/-! ## Reading digits -/

theorem digitLoop_digits {α : Type} (step : α → ℕ → α) (i : α) (c2 : ℕ) (ds : Bytes)
    (hds : ∀ c ∈ ds, IsDigit c) :
    digitLoop step i c2 ds = (ds.foldl (fun i c => step i (digitValue c)) i, c2 + ds.length) := by
  induction ds generalizing i c2 with
  | nil => rfl
  | cons c ds ih =>
      rw [digitLoop, if_pos (hds c (by simp)), ih _ _ fun c' hc' => hds c' (by simp [hc']),
        List.foldl_cons, List.length_cons, Nat.add_assoc, Nat.add_comm 1]

theorem foldl_bmod (m v : ℕ) (ds : Bytes) :
    ds.foldl (fun (i : ℤ) c => Int.bmod (i * 10 + digitValue c) m) (Int.bmod v m) =
      Int.bmod (ds.foldl (fun v c => 10 * v + digitValue c) v : ℕ) m := by
  induction ds generalizing v with
  | nil => rfl
  | cons c ds ih =>
      have hstep : Int.bmod (Int.bmod v m * 10 + digitValue c) m =
          Int.bmod ((10 * v + digitValue c : ℕ) : ℤ) m := by
        rw [← Int.bmod_add_bmod, Int.bmod_mul_bmod, Int.bmod_add_bmod]
        congr 1
        push_cast
        ring
      rw [List.foldl_cons, List.foldl_cons, hstep, ih]

theorem foldl_mod (m v : ℕ) (ds : Bytes) :
    ds.foldl (fun i c => (i * 10 + digitValue c) % m) (v % m) =
      ds.foldl (fun v c => 10 * v + digitValue c) v % m := by
  induction ds generalizing v with
  | nil => rfl
  | cons c ds ih =>
      have hstep : (v % m * 10 + digitValue c) % m = (10 * v + digitValue c) % m := by
        rw [Nat.add_mod, Nat.mod_mul_mod, ← Nat.add_mod, Nat.mul_comm]
      rw [List.foldl_cons, List.foldl_cons, hstep, ih]

theorem isDigit_of_all {ds : Bytes} (h : (ds.all fun c => decide (IsDigit c)) = true) :
    ∀ c ∈ ds, IsDigit c := by
  intro c hc
  simpa using List.all_eq_true.1 h c hc

theorem not_isDigit_blank : ¬ IsDigit (chr ' ') := by decide

theorem not_isDigit_minus : ¬ IsDigit (chr '-') := by decide

theorem takeWhile_blank {c : UInt8} (hc : c ≠ chr ' ') (p : Bytes) :
    (c :: p).takeWhile (· = chr ' ') = [] := by
  simp [hc]

theorem dropWhile_blank {c : UInt8} (hc : c ≠ chr ' ') (p : Bytes) :
    (c :: p).dropWhile (· = chr ' ') = c :: p := by
  simp [hc]

theorem ne_blank_of_isDigit {c : UInt8} (hc : IsDigit c) : c ≠ chr ' ' := by
  rintro rfl
  exact not_isDigit_blank hc

theorem ne_minus_of_isDigit {c : UInt8} (hc : IsDigit c) : c ≠ chr '-' := by
  rintro rfl
  exact not_isDigit_minus hc

theorem zero_notMem_digits {ds : Bytes} (hds : ∀ c ∈ ds, IsDigit c) : (0 : UInt8) ∉ ds := by
  intro h
  exact absurd (hds 0 h) (by decide)

theorem usedCount_of_pos {c1 c2 : ℕ} (h : c2 ≠ 0) : usedCount c1 c2 = (c1 + c2 : ℕ) := by
  rw [usedCount, if_pos h]
  push_cast
  rfl

theorem myAtou_digits {ds : Bytes} (hne : ds ≠ []) (hds : ∀ c ∈ ds, IsDigit c) :
    myAtou ds = (decimalValue ds % 2 ^ 64, (ds.length : ℤ)) := by
  obtain ⟨c, ds', rfl⟩ := List.exists_cons_of_ne_nil hne
  have hc := ne_blank_of_isDigit (hds c (by simp))
  have hfold := foldl_mod (2 ^ 64) 0 (c :: ds')
  rw [Nat.zero_mod] at hfold
  simp only [myAtou, takeWhile_blank hc, dropWhile_blank hc, digitLoop_digits _ _ _ _ hds, hfold]
  rw [usedCount_of_pos (by simp)]
  simp [decimalValue]

theorem myAtou_minus (ds : Bytes) : (myAtou (chr '-' :: ds)).2 = -1 := by
  have hc : chr '-' ≠ chr ' ' := by decide
  simp only [myAtou, takeWhile_blank hc, dropWhile_blank hc, digitLoop, if_neg not_isDigit_minus]
  rfl

theorem myAtoi_digits {ds : Bytes} (hne : ds ≠ []) (hds : ∀ c ∈ ds, IsDigit c) :
    myAtoi ds = (Int.bmod (decimalValue ds) (2 ^ 32), (ds.length : ℤ)) := by
  obtain ⟨c, ds', rfl⟩ := List.exists_cons_of_ne_nil hne
  have hc := ne_blank_of_isDigit (hds c (by simp))
  have hsign : firstByte (c :: ds') ≠ chr '-' := ne_minus_of_isDigit (hds c (by simp))
  have hfold := foldl_bmod (2 ^ 32) 0 (c :: ds')
  rw [Nat.cast_zero, Int.zero_bmod] at hfold
  simp only [myAtoi, takeWhile_blank hc, dropWhile_blank hc, hsign, if_false,
    digitLoop_digits _ _ _ _ hds]
  rw [usedCount_of_pos (by simp)]
  simp only [List.length_nil, Nat.zero_add, Prod.mk.injEq, and_true]
  exact hfold

theorem myAtoi_minus_digits {ds : Bytes} (hne : ds ≠ []) (hds : ∀ c ∈ ds, IsDigit c) :
    myAtoi (chr '-' :: ds) =
      (Int.bmod (-(decimalValue ds : ℤ)) (2 ^ 32), ((ds.length + 1 : ℕ) : ℤ)) := by
  have hc : chr '-' ≠ chr ' ' := by decide
  have hsign : firstByte (chr '-' :: ds) = chr '-' := rfl
  have hfold := foldl_bmod (2 ^ 32) 0 ds
  rw [Nat.cast_zero, Int.zero_bmod] at hfold
  have hlen : ds.length ≠ 0 := by simpa using hne
  simp only [myAtoi, takeWhile_blank hc, dropWhile_blank hc, hsign, if_true, List.tail_cons,
    digitLoop_digits _ _ _ _ hds]
  rw [usedCount_of_pos (by omega)]
  simp only [List.length_nil, Nat.zero_add, Prod.mk.injEq]
  refine ⟨?_, by rw [Nat.add_comm]⟩
  rw [hfold]
  exact Int.bmod_neg_bmod

end ScOpen
