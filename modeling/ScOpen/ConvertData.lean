import ScOpen.Parse
import ScOpen.StoredText

/-!
# Data as printable text

`data_to_char()` writes the bytes that cannot be printed as escapes, and `char_to_data()` reads
escapes back. A backslash in the data is written as it is. The array that the two digits of an
escape are copied to is not initialized: what it holds behind them is a parameter.
-/

namespace ScOpen

def lowerHex (d : ℕ) : UInt8 := if d < 10 then UInt8.ofNat (48 + d) else UInt8.ofNat (87 + d)

def hexPair (c : UInt8) : Bytes := [lowerHex (c.toNat / 16), lowerHex (c.toNat % 16)]

def escaped (c : UInt8) : Bytes :=
  if IsPrintable c then [c]
  else if c = chr '\n' then cstr "\\n"
  else if c = chr '\r' then cstr "\\r"
  else chr '\\' :: chr 'x' :: hexPair c

def dataToChar (bufIn : Bytes) : Bytes := bufIn.flatMap escaped

def xdigitsFrom (v : ℕ) : Bytes → ℕ
  | [] => v
  | c :: p =>
      match xdigitValue? c with
      | some d => xdigitsFrom (16 * v + d) p
      | none => v

def scanHexByte (p : Bytes) : UInt8 :=
  let p := p.dropWhile isSpace
  let p' := if firstByte p = chr '-' ∨ firstByte p = chr '+' then p.tail else p
  let p'' := if firstByte p' = chr '0' ∧ (firstByte p'.tail = chr 'x' ∨ firstByte p'.tail = chr 'X')
    then p'.drop 2 else p'
  let iv := min (xdigitsFrom 0 p'') (2 ^ 64 - 1)
  if firstByte p = chr '-' then 0 - UInt8.ofNat iv else UInt8.ofNat iv

/-- `strncpy()` of two characters of a text that ends where the list does. -/
def copyTwo (p : Bytes) : Bytes := p.take 2 ++ List.replicate (2 - p.length) 0

/-- `char_to_data()`; `sbuf` is what the array holds behind its first two characters. -/
def charToData (sbuf : Bytes) : Bytes → Bytes
  | [] => []
  | c :: p =>
      if c = chr '\\' ∧ firstByte p = chr 'n' then chr '\n' :: charToData sbuf (p.drop 1)
      else if c = chr '\\' ∧ firstByte p = chr 'r' then chr '\r' :: charToData sbuf (p.drop 1)
      else if c = chr '\\' ∧ firstByte p = chr 'x' then
        scanHexByte (copyTwo (p.drop 1) ++ sbuf) :: charToData sbuf (p.drop 3)
      else c :: charToData sbuf p
termination_by bufIn => bufIn.length
decreasing_by
  all_goals
    simp only [List.length_cons, List.length_drop]
    omega

/-! ## Escapes -/

def WrittenHex (c : UInt8) : Prop := ¬IsPrintable c ∧ c ≠ chr '\n' ∧ c ≠ chr '\r'

instance (c : UInt8) : Decidable (WrittenHex c) := inferInstanceAs (Decidable (_ ∧ _ ∧ _))

inductive EscapeCase (c : UInt8) : Prop
  | plain (h : IsPrintable c) (htext : escaped c = [c])
  | newline (h : c = chr '\n') (htext : escaped c = [chr '\\', chr 'n'])
  | carriageReturn (h : c = chr '\r') (htext : escaped c = [chr '\\', chr 'r'])
  | hex (h : WrittenHex c) (htext : escaped c = chr '\\' :: chr 'x' :: hexPair c)

theorem escaped_cases (c : UInt8) : EscapeCase c := by
  by_cases hprint : IsPrintable c
  · exact .plain hprint (if_pos hprint)
  by_cases hnewline : c = chr '\n'
  · exact .newline hnewline ((if_neg hprint).trans (if_pos hnewline))
  by_cases hreturn : c = chr '\r'
  · exact .carriageReturn hreturn
      ((if_neg hprint).trans ((if_neg hnewline).trans (if_pos hreturn)))
  · exact .hex ⟨hprint, hnewline, hreturn⟩
      ((if_neg hprint).trans ((if_neg hnewline).trans (if_neg hreturn)))

theorem dataToChar_cons (c : UInt8) (d : Bytes) :
    dataToChar (c :: d) = escaped c ++ dataToChar d := List.flatMap_cons

theorem lowerHex_ne : ∀ d < 16, lowerHex d ≠ chr '\\' ∧ lowerHex d ≠ chr 'x' ∧
    IsPrintable (lowerHex d) := by decide

theorem hexPair_digits (c : UInt8) : c.toNat / 16 < 16 ∧ c.toNat % 16 < 16 := by
  have hc := c.toNat_lt
  omega

section

variable {sbuf : Bytes} {c : UInt8} {p d : Bytes}

theorem charToData_plain (hc : c ≠ chr '\\') :
    charToData sbuf (c :: p) = c :: charToData sbuf p := by
  rw [charToData, if_neg fun h => hc h.1, if_neg fun h => hc h.1, if_neg fun h => hc h.1]

theorem charToData_append {u : Bytes} (hu : chr '\\' ∉ u) :
    charToData sbuf (u ++ p) = u ++ charToData sbuf p := by
  induction u with
  | nil => rfl
  | cons c u ih =>
      have hc : c ≠ chr '\\' := fun hc => hu (hc ▸ List.mem_cons_self)
      rw [List.cons_append, charToData_plain hc, ih fun h => hu (List.mem_cons_of_mem c h)]
      rfl

def readBack (sbuf : Bytes) (c : UInt8) : UInt8 :=
  if WrittenHex c then scanHexByte (hexPair c ++ sbuf) else c

theorem copyTwo_pair (a b : UInt8) (p : Bytes) : copyTwo (a :: b :: p) = [a, b] := by
  simp [copyTwo]

theorem charToData_escaped (hc : c ≠ chr '\\') :
    charToData sbuf (escaped c ++ p) = readBack sbuf c :: charToData sbuf p := by
  cases escaped_cases c with
  | plain h htext =>
      rw [htext, readBack, if_neg fun hhex => hhex.1 h]
      exact charToData_plain hc
  | newline h htext =>
      subst h
      have hplain : ¬WrittenHex (chr '\n') := by decide
      have hstep : charToData sbuf (chr '\\' :: chr 'n' :: p) = chr '\n' :: charToData sbuf p := by
        rw [charToData, if_pos ⟨rfl, rfl⟩]
        rfl
      rw [htext, readBack, if_neg hplain]
      exact hstep
  | carriageReturn h htext =>
      subst h
      have hplain : ¬WrittenHex (chr '\r') := by decide
      have hstep : charToData sbuf (chr '\\' :: chr 'r' :: p) = chr '\r' :: charToData sbuf p := by
        rw [charToData, if_neg (by simp [firstByte]; decide), if_pos ⟨rfl, rfl⟩]
        rfl
      rw [htext, readBack, if_neg hplain]
      exact hstep
  | hex h htext =>
      have hstep : charToData sbuf (chr '\\' :: chr 'x' :: (hexPair c ++ p)) =
          scanHexByte (hexPair c ++ sbuf) :: charToData sbuf p := by
        rw [charToData, if_neg (by simp [firstByte]; decide), if_neg (by simp [firstByte]; decide),
          if_pos ⟨rfl, rfl⟩]
        exact congrArg (fun digits => scanHexByte (digits ++ sbuf) :: charToData sbuf p)
          (copyTwo_pair _ _ p)
      rw [htext, readBack, if_pos h]
      exact hstep

def StartsEscape (c next : UInt8) : Prop :=
  c = chr '\\' ∧ (next = chr 'n' ∨ next = chr 'r' ∨ next = chr 'x')

instance (c next : UInt8) : Decidable (StartsEscape c next) := inferInstanceAs (Decidable (_ ∧ _))

theorem charToData_copied (h : ¬StartsEscape c (firstByte p)) :
    charToData sbuf (c :: p) = c :: charToData sbuf p := by
  rw [charToData, if_neg fun h' => h ⟨h'.1, .inl h'.2⟩, if_neg fun h' => h ⟨h'.1, .inr (.inl h'.2)⟩,
    if_neg fun h' => h ⟨h'.1, .inr (.inr h'.2)⟩]

theorem startsEscape_dataToChar :
    StartsEscape c (firstByte (dataToChar d)) ↔ StartsEscape c (firstByte d) := by
  cases d with
  | nil => rfl
  | cons a d =>
      have hfirst : firstByte (a :: d) = a := rfl
      have hslash : ¬StartsEscape c (chr '\\') := fun h => absurd h.2 (by decide)
      rw [dataToChar_cons, hfirst]
      cases escaped_cases a with
      | plain h htext =>
          rw [htext]
          rfl
      | newline h htext =>
          rw [htext, h]
          exact iff_of_false hslash fun h => absurd h.2 (by decide)
      | carriageReturn h htext =>
          rw [htext, h]
          exact iff_of_false hslash fun h => absurd h.2 (by decide)
      | hex h htext =>
          rw [htext]
          refine iff_of_false hslash fun hstart => ?_
          rcases hstart.2 with rfl | rfl | rfl <;> exact absurd h.1 (by decide)

def NoEscapes : Bytes → Prop
  | [] => True
  | c :: d => ¬StartsEscape c (firstByte d) ∧ NoEscapes d

/-- Two characters of an escape text that are taken for digits, and what they leave. -/
theorem drop_two_dataToChar (d : Bytes) :
    ∃ u q, (dataToChar d).drop 2 = u ++ dataToChar q ∧ chr '\\' ∉ u ∧
      u.length + q.length ≤ d.length + 1 ∧
      (u.length + q.length ≤ d.length ∨ ∀ w, u ++ w ≠ chr 'x' :: d) := by
  have hnil : chr '\\' ∉ ([] : Bytes) := List.not_mem_nil
  cases d with
  | nil => exact ⟨[], [], rfl, hnil, by simp, .inl (by simp)⟩
  | cons a d =>
      obtain ⟨ha, hb⟩ := hexPair_digits a
      rw [dataToChar_cons]
      cases escaped_cases a with
      | newline h htext =>
          rw [htext]
          exact ⟨[], d, rfl, hnil, by simp; omega, .inl (by simp)⟩
      | carriageReturn h htext =>
          rw [htext]
          exact ⟨[], d, rfl, hnil, by simp; omega, .inl (by simp)⟩
      | hex h htext =>
          rw [htext]
          refine ⟨hexPair a, d, rfl, ?_, ?_, .inr fun w hw => ?_⟩
          · simp only [hexPair, List.mem_cons, List.not_mem_nil, or_false, not_or]
            exact ⟨(lowerHex_ne _ ha).1.symm, (lowerHex_ne _ hb).1.symm⟩
          · simp only [hexPair, List.length_cons, List.length_nil]
            omega
          · exact (lowerHex_ne _ ha).2.1 (List.cons.inj hw).1
      | plain h htext =>
          rw [htext]
          cases d with
          | nil => exact ⟨[], [], rfl, hnil, by simp, .inl (by simp)⟩
          | cons b d =>
              obtain ⟨ha', hb'⟩ := hexPair_digits b
              rw [dataToChar_cons]
              cases escaped_cases b with
              | plain h' htext' =>
                  rw [htext']
                  exact ⟨[], d, rfl, hnil, by simp; omega, .inl (by simp; omega)⟩
              | newline h' htext' =>
                  rw [htext']
                  exact ⟨[chr 'n'], d, rfl, by decide, by simp; omega, .inl (by simp; omega)⟩
              | carriageReturn h' htext' =>
                  rw [htext']
                  exact ⟨[chr 'r'], d, rfl, by decide, by simp; omega, .inl (by simp; omega)⟩
              | hex h' htext' =>
                  rw [htext']
                  refine ⟨chr 'x' :: hexPair b, d, rfl, ?_, ?_, .inr fun w hw => ?_⟩
                  · simp only [hexPair, List.mem_cons, List.not_mem_nil, or_false, not_or]
                    exact ⟨by decide, (lowerHex_ne _ ha').1.symm, (lowerHex_ne _ hb').1.symm⟩
                  · simp only [hexPair, List.length_cons, List.length_nil]
                    omega
                  · have hsecond : lowerHex (b.toNat % 16) = b :=
                      (List.cons.inj (List.cons.inj (List.cons.inj hw).2).2).1
                    exact h'.1 (hsecond ▸ (lowerHex_ne _ hb').2.2)

inductive SlashCase (sbuf d : Bytes) : Prop
  | copied (h : ¬StartsEscape (chr '\\') (firstByte d))
      (hread : charToData sbuf (chr '\\' :: dataToChar d) =
        chr '\\' :: charToData sbuf (dataToChar d))
  | named {k v : UInt8} {d' : Bytes} (hd : d = k :: d')
      (h : StartsEscape (chr '\\') (firstByte d)) (hv : v ≠ chr '\\')
      (hread : charToData sbuf (chr '\\' :: dataToChar d) = v :: charToData sbuf (dataToChar d'))
  | hex {v : UInt8} {d' : Bytes} (hd : d = chr 'x' :: d')
      (h : StartsEscape (chr '\\') (firstByte d))
      (hread : charToData sbuf (chr '\\' :: dataToChar d) =
        v :: charToData sbuf ((dataToChar d').drop 2))

theorem slash_cases (sbuf d : Bytes) : SlashCase sbuf d := by
  by_cases hstart : StartsEscape (chr '\\') (firstByte d)
  · cases d with
    | nil => exact absurd hstart.2 (by decide)
    | cons k d =>
        have hk : k = chr 'n' ∨ k = chr 'r' ∨ k = chr 'x' := hstart.2
        have hplain : ∀ k, k = chr 'n' ∨ k = chr 'r' ∨ k = chr 'x' →
            dataToChar (k :: d) = k :: dataToChar d := by
          intro k hk
          rcases hk with rfl | rfl | rfl <;> rfl
        rcases hk with rfl | rfl | rfl
        · refine .named rfl hstart (by decide : chr '\n' ≠ chr '\\') ?_
          rw [hplain _ (.inl rfl), charToData, if_pos ⟨rfl, rfl⟩]
          rfl
        · have hn : ¬chr 'r' = chr 'n' := by decide
          refine .named rfl hstart (by decide : chr '\r' ≠ chr '\\') ?_
          rw [hplain _ (.inr (.inl rfl)), charToData, if_neg fun h => hn h.2, if_pos ⟨rfl, rfl⟩]
          rfl
        · have hn : ¬chr 'x' = chr 'n' := by decide
          have hr : ¬chr 'x' = chr 'r' := by decide
          refine .hex (v := scanHexByte (copyTwo (dataToChar d) ++ sbuf)) rfl hstart ?_
          rw [hplain _ (.inr (.inr rfl)), charToData, if_neg fun h => hn h.2,
            if_neg fun h => hr h.2, if_pos ⟨rfl, rfl⟩]
          rfl
  · exact .copied hstart (charToData_copied fun h => hstart (startsEscape_dataToChar.1 h))

theorem dataToChar_slash (d : Bytes) :
    dataToChar (chr '\\' :: d) = chr '\\' :: dataToChar d := rfl

/-- Reading back makes no text longer than the data. -/
theorem length_charToData_le (sbuf d : Bytes) :
    (charToData sbuf (dataToChar d)).length ≤ d.length := by
  induction hlength : d.length using Nat.strong_induction_on generalizing d with
  | _ n ih =>
    cases d with
    | nil => simp [dataToChar, charToData]
    | cons c d =>
        rw [List.length_cons] at hlength
        by_cases hc : c = chr '\\'
        · rw [hc, dataToChar_slash]
          cases slash_cases sbuf d with
          | copied h hread =>
              rw [hread, List.length_cons, ← hlength]
              exact Nat.succ_le_succ (ih d.length (by omega) d rfl)
          | @named k v d' hd h hv hread =>
              rw [hd, List.length_cons] at hlength
              have hrest := ih d'.length (by omega) d' rfl
              rw [hread, List.length_cons]
              omega
          | @hex v d' hd h hread =>
              obtain ⟨u, q, hdrop, hu, hle, -⟩ := drop_two_dataToChar d'
              rw [hd, List.length_cons] at hlength
              have hrest := ih q.length (by omega) q rfl
              rw [hread, hdrop, charToData_append hu, List.length_cons, List.length_append]
              omega
        · rw [dataToChar_cons, charToData_escaped hc, List.length_cons, ← hlength]
          exact Nat.succ_le_succ (ih d.length (by omega) d rfl)

theorem slash_readBack (sbuf : Bytes) : readBack sbuf (chr '\\') = chr '\\' :=
  if_neg (by decide)

/-- Reading back what was written gives the data again, exactly when the data has nothing that
looks like the start of an escape, and the hexadecimal numbers are read as they were written. -/
theorem char_to_data_inverse_iff (sbuf d : Bytes) :
    charToData sbuf (dataToChar d) = d ↔ NoEscapes d ∧ ∀ c ∈ d, readBack sbuf c = c := by
  induction d with
  | nil => simp [dataToChar, charToData, NoEscapes]
  | cons c d ih =>
      rw [NoEscapes, List.forall_mem_cons]
      by_cases hc : c = chr '\\'
      · rw [hc, dataToChar_slash]
        cases slash_cases sbuf d with
        | copied h hread =>
            rw [hread, List.cons.injEq, ih, and_iff_right rfl, and_iff_right h,
              and_iff_right (slash_readBack sbuf)]
        | named hd h hv hread =>
            rw [hread]
            exact iff_of_false (fun heq => hv (List.cons.inj heq).1) fun hand => hand.1.1 h
        | @hex v d' hd h hread =>
            refine iff_of_false (fun heq => ?_) fun hand => hand.1.1 h
            obtain ⟨u, q, hdrop, hu, hle, hshort⟩ := drop_two_dataToChar d'
            rw [hread, hdrop, charToData_append hu, hd] at heq
            have htail := (List.cons.inj heq).2
            rcases hshort with hshort | hne
            · have hq := length_charToData_le sbuf q
              have hlength := congrArg List.length htail
              rw [List.length_append, List.length_cons] at hlength
              omega
            · exact hne _ htail
      · have hstart : ¬StartsEscape c (firstByte d) := fun h => hc h.1
        rw [dataToChar_cons, charToData_escaped hc, List.cons.injEq, ih]
        exact ⟨fun h => ⟨⟨hstart, h.2.1⟩, h.1, h.2.2⟩, fun h => ⟨h.2.1, h.1.2, h.2.2⟩⟩

end

/-- A backslash and an `n` come back as a line feed. -/
theorem char_to_data_not_always_inverse :
    ¬∀ sbuf d : Bytes, charToData sbuf (dataToChar d) = d := by
  intro h
  have hread : charToData [] (dataToChar [chr '\\', chr 'n']) = [chr '\n'] := by
    have hslash : dataToChar [chr '\\', chr 'n'] = [chr '\\', chr 'n'] := by decide
    rw [hslash, charToData, if_pos ⟨rfl, rfl⟩, List.drop_one, List.tail_cons, charToData]
  have heq := (h [] [chr '\\', chr 'n']).symm.trans hread
  exact absurd heq (by decide)

theorem lowerHex_read : ∀ d < 16, xdigitValue? (lowerHex d) = some d ∧
    isSpace (lowerHex d) = false ∧ lowerHex d ≠ chr '-' ∧ lowerHex d ≠ chr '+' ∧
    lowerHex d ≠ chr 'X' := by decide

/-- Behind two digits that no other digit follows, every byte is read as it was written. -/
theorem readBack_of_end {b : UInt8} (hb : xdigitValue? b = none) (sbuf : Bytes) (c : UInt8) :
    readBack (b :: sbuf) c = c := by
  rw [readBack]
  by_cases hhex : WrittenHex c
  · obtain ⟨hhi, hlo⟩ := hexPair_digits c
    obtain ⟨hvalue, hspace, hminus, hplus, -⟩ := lowerHex_read _ hhi
    obtain ⟨hvalue', -, -, -, hX⟩ := lowerHex_read _ hlo
    have hx := (lowerHex_ne _ hlo).2.1
    have hdigits : xdigitsFrom 0 (hexPair c ++ b :: sbuf) = c.toNat := by
      simp only [hexPair, List.cons_append, List.nil_append, xdigitsFrom, hvalue, hvalue', hb]
      omega
    have hsmall : min c.toNat (2 ^ 64 - 1) = c.toNat := by
      have hc := c.toNat_lt
      omega
    have hdrop : (hexPair c ++ b :: sbuf).dropWhile isSpace = hexPair c ++ b :: sbuf := by
      rw [hexPair, List.cons_append, List.dropWhile_cons_of_neg (by rw [hspace]; decide)]
    have hsign : ¬(firstByte (hexPair c ++ b :: sbuf) = chr '-' ∨
        firstByte (hexPair c ++ b :: sbuf) = chr '+') := by
      rintro (h | h)
      · exact hminus h
      · exact hplus h
    have hprefix : ¬(firstByte (hexPair c ++ b :: sbuf) = chr '0' ∧
        (firstByte (hexPair c ++ b :: sbuf).tail = chr 'x' ∨
          firstByte (hexPair c ++ b :: sbuf).tail = chr 'X')) := by
      rintro ⟨-, h | h⟩
      · exact hx h
      · exact hX h
    rw [if_pos hhex, scanHexByte]
    simp only [hdrop, if_neg hsign, if_neg hprefix, hdigits, hsmall]
    rw [if_neg fun h => hsign (.inl h)]
    exact UInt8.ofNat_toNat
  · exact if_neg hhex

end ScOpen
