import ScOpen.ByteOrder
import Mathlib.Data.List.TakeWhile

/-!
# The C types the program computes with

Unsigned 32-bit counters are natural numbers below `2 ^ 32` whose subtraction wraps (`sub32`).
A C string is the bytes in front of its terminator. `swap` is the repository's byte swap on a
little-endian machine, and a union of a `uint32_t` with its bytes is `leBytes`/`leValue`.
-/

namespace ScOpen

def sub32 (a b : ℕ) : ℕ := (a + (2 ^ 32 - b % 2 ^ 32)) % 2 ^ 32

theorem sub32_of_le {a b : ℕ} (hle : b ≤ a) (ha : a < 2 ^ 32) : sub32 a b = a - b := by
  unfold sub32
  omega

theorem sub32_zero_left {b : ℕ} (hpos : 0 < b) (hb : b < 2 ^ 32) :
    sub32 0 b = 2 ^ 32 - b := by
  unfold sub32
  omega

def chr (c : Char) : UInt8 := UInt8.ofNat c.toNat

/-- A string literal of the source, without its terminator. -/
def cstr (s : String) : Bytes := s.toList.map chr

/-- The C string that starts a buffer's data: everything in front of the first NUL. -/
def cString (text : Bytes) : Bytes := text.takeWhile (· ≠ 0)

theorem cString_eq_self {text : Bytes} (h : 0 ∉ text) : cString text = text := by
  rw [cString, List.takeWhile_eq_self_iff]
  intro b hb
  have hne : b ≠ 0 := fun hb0 => h (hb0 ▸ hb)
  simpa using hne

theorem exists_dropWhile (p : UInt8 → Bool) (l : Bytes) :
    ∃ w, l = w ++ l.dropWhile p ∧ (∀ c ∈ w, p c = true) ∧
      ∀ c r, l.dropWhile p = c :: r → p c = false := by
  refine ⟨l.takeWhile p, List.takeWhile_append_dropWhile.symm, fun c hc => List.mem_takeWhile_imp hc,
    fun c r hcons => ?_⟩
  have hhead := List.head_dropWhile_not p (l := l) (by rw [hcons]; exact List.cons_ne_nil _ _)
  simp only [hcons, List.head_cons] at hhead
  exact hhead

/-- The first byte of a C string, its terminator when it is empty. -/
def firstByte (text : Bytes) : UInt8 := text.headD 0

def swap (data : Bytes) : Bytes := data.reverse

theorem swap_leBytes (k n : ℕ) : swap (leBytes k n) = beBytes k n := rfl

theorem leValue_swap (bs : Bytes) : leValue (swap bs) = beValue bs := rfl

end ScOpen
