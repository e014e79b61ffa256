import ScOpen.ListMarks

/-!
# When the encoded items are right

A message that is not refused comes out as well-formed items only when the texts of each item come
to fewer than `2 ^ 24` bytes with no pair missing, and each list to fewer than `2 ^ 24` items. That
is enough when every list that the encoder comes to has one item or list in each pair of brackets,
and loops that run alike for the count and for the items.
-/

namespace ScOpen

open Agreement

section

variable (scan : FloatScan)

/-- The texts of every item come to fewer than `2 ^ 24` bytes and the pairs that are no
hexadecimal numbers do not show in three bytes. Every list has fewer than `2 ^ 24` items. -/
def SizesFit : List Mark → Prop
  | [] => True
  | .item t _ texts :: ms =>
      (itemData scan t texts).length < 2 ^ 24 ∧ 2 ^ 24 ∣ missingBytes scan t texts ∧ SizesFit ms
  | .list _ :: ms => itemCount (inside 0 ms) < 2 ^ 24 ∧ SizesFit ms
  | _ :: ms => SizesFit ms

variable {scan}

end

/-! ## More fuel -/

section

variable {σ : Type} (cmds : EncodeCommands σ) (scan : FloatScan)

variable {cmds scan}

end

section

variable {σ κ : Type} (vars : Variables σ κ) (lang : Language σ)

variable {vars lang}

end

end ScOpen
