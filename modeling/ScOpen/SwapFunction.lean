import ScOpen.BinaryFiles
import ScOpen.Cells
import ScOpen.SubstrFunction

/-!
# The `swap` function

The groups of two characters are copied from the end of a local buffer towards its start. The last
group that is copied goes to its second byte, and its first byte and the one behind the text are
left as they were, which is whatever the stack held.
-/

namespace ScOpen.Expression

/-- `sizeof(buf)` in `solve_function()`. -/
def solveBufSize : ℕ := 1024

/-- The loop of `TT_SWAP` from `i` on, with `k` turns to go. Behind the characters of the text
stands its terminator. -/
def swapLoop (j : ℕ) (arg1 : Bytes) : ℕ → ℕ → Bytes → Option Bytes
  | _, 0, buf => some buf
  | i, k + 1, buf => do
      let group ← Cells.read (arg1 ++ [0]) (i * 2 % 2 ^ 32) 2
      let buf ← Cells.write buf (sub32 (sub32 (j * 2 % 2 ^ 32) (i * 2 % 2 ^ 32)) 1) group
      swapLoop j arg1 (i + 1) k buf

/-- The C string in a buffer; without a terminator it goes on behind the buffer. -/
def stringIn (buf : Bytes) : Option Bytes := if 0 ∈ buf then some (cString buf) else none

/-- `TT_SWAP` in `solve_function()`, where `buf` is what the buffer holds before. The last argument
is the first one here. -/
def solveSwap (buf arg0 arg1 : Bytes) : Option Bytes :=
  let j := scanUnsignedOrZero arg0
  (swapLoop j arg1 0 j buf).bind stringIn

def swapGroups : Bytes → Bytes
  | c :: d :: text => swapGroups text ++ [c, d]
  | _ => []

section

variable {arg0 str buf : Bytes} {n : ℕ}

/-! ## The groups -/

theorem length_swapGroups (heven : Even str.length) : (swapGroups str).length = str.length := by
  fun_induction swapGroups str with
  | case1 c d text ih =>
      have hrest : Even text.length := by
        rwa [List.length_cons, List.length_cons, Nat.even_add_one, Nat.even_add_one,
          not_not] at heven
      rw [List.length_append, ih hrest]
      rfl
  | case2 str hshort =>
      rcases str with _ | ⟨c, _ | ⟨d, text⟩⟩
      · rfl
      · exact absurd heven (by simp)
      · exact absurd rfl (hshort c d text)

theorem swapGroups_append (text : Bytes) (heven : Even str.length) :
    swapGroups (str ++ text) = swapGroups text ++ swapGroups str := by
  fun_induction swapGroups str with
  | case1 c d rest ih =>
      have hrest : Even rest.length := by
        rwa [List.length_cons, List.length_cons, Nat.even_add_one, Nat.even_add_one,
          not_not] at heven
      rw [List.cons_append, List.cons_append, swapGroups, ih hrest, List.append_assoc]
  | case2 str hshort =>
      rcases str with _ | ⟨c, _ | ⟨d, rest⟩⟩
      · exact (List.append_nil _).symm
      · exact absurd heven (by simp)
      · exact absurd rfl (hshort c d rest)

/-- Reversed twice, the groups are in their order again. -/
theorem swapGroups_swapGroups (heven : Even str.length) : swapGroups (swapGroups str) = str := by
  fun_induction swapGroups str with
  | case1 c d text ih =>
      have hrest : Even text.length := by
        rwa [List.length_cons, List.length_cons, Nat.even_add_one, Nat.even_add_one,
          not_not] at heven
      have heven' : Even (swapGroups text).length := (length_swapGroups hrest).symm ▸ hrest
      rw [swapGroups_append [c, d] heven', ih hrest]
      rfl
  | case2 str hshort =>
      rcases str with _ | ⟨c, _ | ⟨d, text⟩⟩
      · rfl
      · exact absurd heven (by simp)
      · exact absurd rfl (hshort c d text)

theorem mem_swapGroups {b : UInt8} (h : b ∈ swapGroups str) : b ∈ str := by
  fun_induction swapGroups str with
  | case1 c d text ih =>
      rcases List.mem_append.1 h with h | h
      · exact List.mem_cons_of_mem c (List.mem_cons_of_mem d (ih h))
      · exact List.mem_append_left text h
  | case2 str hshort => exact absurd h List.not_mem_nil

/-! ## The loop -/

theorem swapLoop_succ {j k i : ℕ} {before rest front back : Bytes} (hj : j < 2 ^ 31)
    (hturns : i + (k + 1) = j) (hbefore : before.length = 2 * i) (hfront : front.length = 2 * k)
    (b c d x y : UInt8) :
    swapLoop j (before ++ c :: d :: rest) i (k + 1) (b :: (front ++ x :: y :: back)) =
      swapLoop j (before ++ c :: d :: rest) (i + 1) k (b :: (front ++ c :: d :: back)) := by
  have hread : Cells.read (before ++ c :: d :: rest ++ [0]) (i * 2 % 2 ^ 32) 2 = some [c, d] := by
    have hbefore' : before.length = i * 2 % 2 ^ 32 := by omega
    rw [List.append_assoc]
    exact @Cells.read_append _ before [c, d] (rest ++ [0]) _ 2 hbefore' rfl
  have hplace : sub32 (sub32 (j * 2 % 2 ^ 32) (i * 2 % 2 ^ 32)) 1 = 2 * k + 1 := by
    unfold sub32
    omega
  have hwrite : Cells.write (b :: (front ++ x :: y :: back)) (2 * k + 1) [c, d] =
      some (b :: (front ++ c :: d :: back)) :=
    @Cells.write_append _ (b :: front) [x, y] [c, d] back _ (congrArg Nat.succ hfront) rfl
  rw [swapLoop, hread, hplace]
  change (Cells.write _ _ [c, d]).bind _ = _
  rw [hwrite]
  rfl

/-- With `k` turns to go the groups that are left are put behind the first byte. -/
theorem swapLoop_eq {j k i : ℕ} {before rest front back : Bytes} (hj : j < 2 ^ 31)
    (hturns : i + k = j) (hbefore : before.length = 2 * i) (hrest : rest.length = 2 * k)
    (hfront : front.length = 2 * k) (b : UInt8) :
    swapLoop j (before ++ rest) i k (b :: (front ++ back)) =
      some (b :: (swapGroups rest ++ back)) := by
  induction k generalizing i before rest front back with
  | zero =>
      rw [List.length_eq_zero_iff.1 hrest, List.length_eq_zero_iff.1 hfront]
      rfl
  | succ k ih =>
      obtain ⟨c, d, rest, rfl⟩ : ∃ c d rest', rest = c :: d :: rest' := by
        rcases rest with _ | ⟨c, _ | ⟨d, rest⟩⟩
        · cases hrest
        · rw [List.length_singleton] at hrest
          omega
        · exact ⟨c, d, rest, rfl⟩
      obtain ⟨front, x, y, rfl, hfront'⟩ : ∃ front' x y, front = front' ++ [x, y] ∧
          front'.length = 2 * k := by
        have hdrop : (front.drop (2 * k)).length = 2 := by
          rw [List.length_drop]
          omega
        obtain ⟨x, y, hxy⟩ := List.length_eq_two.1 hdrop
        refine ⟨front.take (2 * k), x, y, ?_, ?_⟩
        · rw [← hxy, List.take_append_drop]
        · rw [List.length_take]
          omega
      have hbefore' : (before ++ [c, d]).length = 2 * (i + 1) := by
        rw [List.length_append, hbefore]
        rfl
      have hrest' : rest.length = 2 * k := by
        rw [List.length_cons, List.length_cons] at hrest
        omega
      have hnext := @ih (i + 1) (before ++ [c, d]) rest front (c :: d :: back) (by omega) hbefore'
        hrest' hfront'
      rw [List.append_assoc] at hnext ⊢
      rw [swapGroups, List.append_assoc]
      exact (swapLoop_succ hj hturns hbefore hfront' b c d x y).trans hnext

/-- The groups stand behind the first byte of the buffer. -/
theorem solveSwap_eq {b : UInt8} {front back : Bytes} (h0 : Denotes arg0 n) (hn : n < 2 ^ 31)
    (hstr : str.length = 2 * n) (hfront : front.length = 2 * n) :
    solveSwap (b :: (front ++ back)) arg0 str = stringIn (b :: (swapGroups str ++ back)) := by
  have hj : scanUnsignedOrZero arg0 = n :=
    (scanUnsigned_of_denotes h0).trans (asUnsigned_of_lt (by omega))
  have hloop := @swapLoop_eq n n 0 [] str front back hn (Nat.zero_add n) rfl hstr hfront b
  rw [List.nil_append] at hloop
  rw [solveSwap, hj]
  change (swapLoop n str 0 n _).bind stringIn = _
  rw [hloop]
  rfl

/-! ## What is returned -/

theorem stringIn_zero (buf : Bytes) : stringIn (0 :: buf) = some [] := if_pos List.mem_cons_self

/-- A first byte that was left in the buffer is in front of the groups. -/
theorem stringIn_ne {b : UInt8} {text back : Bytes} (hb : b ≠ 0) (htext : 0 ∉ text) :
    stringIn (b :: (text ++ back)) ≠ some text := by
  intro h
  unfold stringIn at h
  split at h
  · have hne : ∀ c ∈ b :: text, decide (c ≠ 0) = true := by
      intro c hc
      rcases List.mem_cons.1 hc with rfl | hc
      · exact decide_eq_true hb
      · exact decide_eq_true fun hzero => htext (hzero ▸ hc)
    have hstring : cString (b :: text ++ back) = b :: text ++ cString back :=
      List.takeWhile_append_of_pos hne
    have hlength := congrArg List.length ((hstring.symm.trans (Option.some.inj h)))
    rw [List.length_append, List.length_cons] at hlength
    omega
  · cases h

theorem solveSwap_eq_iff (h0 : Denotes arg0 n) (hn : 2 * n < solveBufSize)
    (hstr : str.length = 2 * n) (hzero : 0 ∉ str) (hbuf : buf.length = solveBufSize) :
    solveSwap buf arg0 str = some (swapGroups str) ↔ n = 0 ∧ buf.head? = some 0 := by
  have hsize : solveBufSize = 1024 := rfl
  obtain ⟨b, front, back, rfl, hfront⟩ : ∃ b front back, buf = b :: (front ++ back) ∧
      front.length = 2 * n := by
    cases buf with
    | nil =>
        rw [List.length_nil] at hbuf
        omega
    | cons b buf =>
        refine ⟨b, buf.take (2 * n), buf.drop (2 * n), by rw [List.take_append_drop], ?_⟩
        rw [List.length_cons] at hbuf
        rw [List.length_take]
        omega
  have hgroups : (swapGroups str).length = 2 * n :=
    (length_swapGroups (hstr ▸ even_two_mul n)).trans hstr
  rw [solveSwap_eq h0 (by omega) hstr hfront]
  by_cases hb : b = 0
  · subst hb
    rw [stringIn_zero, Option.some.injEq, eq_comm, ← List.length_eq_zero_iff, hgroups]
    simp
  · have hgroups0 : 0 ∉ swapGroups str := fun hmem => hzero (mem_swapGroups hmem)
    refine iff_of_false (stringIn_ne hb hgroups0) fun h => hb (Option.some.inj h.2)

/-- The groups in reverse order, and after a second time the text itself, are returned only when
there are none and the buffers, which are never written then, start with a terminator. -/
theorem swap_right_iff {buf' : Bytes} (hn : 2 * n < solveBufSize) (h0 : Denotes arg0 n)
    (hstr : str.length = 2 * n) (hhex : ∀ c ∈ str, IsHexDigit c)
    (hbuf : buf.length = solveBufSize) (hbuf' : buf'.length = solveBufSize) :
    (∃ text, solveSwap buf arg0 str = some text ∧ text = swapGroups str ∧ text.length = 2 * n ∧
        solveSwap buf' arg0 text = some str) ↔
      n = 0 ∧ buf.head? = some 0 ∧ buf'.head? = some 0 := by
  have heven : Even str.length := hstr ▸ even_two_mul n
  have hgroups : (swapGroups str).length = 2 * n := (length_swapGroups heven).trans hstr
  have hzero : 0 ∉ str := fun hmem => (hhex 0 hmem).ne rfl rfl
  have hfirst := solveSwap_eq_iff h0 hn hstr hzero hbuf
  have hsecond := solveSwap_eq_iff h0 hn hgroups (fun hmem => hzero (mem_swapGroups hmem)) hbuf'
  rw [swapGroups_swapGroups heven] at hsecond
  constructor
  · rintro ⟨text, htext, rfl, -, hback⟩
    exact ⟨(hfirst.1 htext).1, (hfirst.1 htext).2, (hsecond.1 hback).2⟩
  · rintro ⟨hnil, hhead, hhead'⟩
    exact ⟨_, hfirst.2 ⟨hnil, hhead⟩, rfl, hgroups, hsecond.2 ⟨hnil, hhead'⟩⟩

end

theorem swap_right_empty :
    (∃ text, solveSwap (List.replicate solveBufSize 0) (intText (0 : ℕ)) [] = some text ∧
        text = swapGroups [] ∧ text.length = 2 * 0 ∧
        solveSwap (List.replicate solveBufSize 0) (intText (0 : ℕ)) text = some []) ↔
      0 = 0 ∧ (List.replicate solveBufSize (0 : UInt8)).head? = some 0 ∧
        (List.replicate solveBufSize (0 : UInt8)).head? = some 0 :=
  swap_right_iff (by decide) (denotes_intText (0 : ℕ)) rfl (List.forall_mem_nil _)
    List.length_replicate List.length_replicate

/-- `swap("0A0B", 2)` with a buffer of zeros. -/
theorem swap_not_always_right :
    ¬ ∀ (n : ℕ) (buf arg0 str : Bytes), 2 * n < solveBufSize → Denotes arg0 n →
      str.length = 2 * n → (∀ c ∈ str, IsHexDigit c) → buf.length = solveBufSize →
      solveSwap buf arg0 str = some (swapGroups str) := by
  intro h
  have hhex : ∀ c ∈ cstr "0A0B", IsHexDigit c :=
    List.forall_mem_cons.2 ⟨rfl, List.forall_mem_cons.2 ⟨rfl, isHexDigit_pair rfl rfl⟩⟩
  have hright := h 2 (List.replicate solveBufSize 0) (intText (2 : ℕ)) (cstr "0A0B") (by decide)
    (denotes_intText (2 : ℕ)) rfl hhex List.length_replicate
  have hnil := (solveSwap_eq_iff (denotes_intText (2 : ℕ)) (by decide) rfl (by decide)
    List.length_replicate).1 hright
  exact absurd hnil.1 (by decide)

end ScOpen.Expression
