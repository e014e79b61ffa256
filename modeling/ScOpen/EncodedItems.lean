import ScOpen.ConvertedSizes

/-!
# The items of a message that is not refused

A list goes on up to the bracket that closes it. The header of a list announces the number of `<`
that the count has seen outside of further brackets, whatever is written inside of the list, and
the header of another item the number of bytes that have been counted for its texts.
-/

namespace ScOpen

/-! ## Lists in the marks -/

/-- The marks up to the bracket that closes `depth` opened ones and the list around them. -/
def inside : ℕ → List Mark → List Mark
  | _, [] => []
  | depth, .opened :: ms => .opened :: inside (depth + 1) ms
  | 0, .closed :: _ => []
  | depth + 1, .closed :: ms => .closed :: inside depth ms
  | depth, m :: ms => m :: inside depth ms

def beyond : ℕ → List Mark → List Mark
  | _, [] => []
  | depth, .opened :: ms => beyond (depth + 1) ms
  | 0, .closed :: ms => ms
  | depth + 1, .closed :: ms => beyond depth ms
  | depth, _ :: ms => beyond depth ms

theorem beyond_length (depth : ℕ) (ms : List Mark) : (beyond depth ms).length ≤ ms.length := by
  induction ms generalizing depth with
  | nil => exact le_rfl
  | cons m ms ih =>
      cases m with
      | closed =>
          cases depth with
          | zero => exact Nat.le_succ _
          | succ depth => exact (ih depth).trans (Nat.le_succ _)
      | _ => exact (ih _).trans (Nat.le_succ _)

def itemCount : List Mark → ℕ
  | [] => 0
  | .opened :: ms => itemCount ms
  | .closed :: ms => itemCount ms
  | .item _ _ _ :: ms => itemCount ms + 1
  | .list _ :: ms => itemCount (beyond 0 ms) + 1
termination_by ms => ms.length
decreasing_by
  all_goals
    have hle := beyond_length 0 ms
    simp only [List.length_cons]
    omega

section

variable (scan : FloatScan)

end

def hexScan : FloatScan where
  scanFloat _ := none
  atof _ := List.replicate 8 0
  scanHex p := (hexValue? (firstByte p)).map fun a =>
    (hexValue? (secondByte p)).elim a fun b => 16 * a + b

end ScOpen
