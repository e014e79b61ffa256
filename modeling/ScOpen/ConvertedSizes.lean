import ScOpen.MessageMarks

/-!
# How many bytes a text adds

Every conversion counts the bytes that it adds, and these are whole elements. The only exception
is a `\x` text of a float: a pair of characters that is no hexadecimal number is counted, but
nothing is added for it.
-/

namespace ScOpen

/-- The C library's floats are four bytes long and its doubles eight. -/
structure FloatScan.Sized (scan : FloatScan) : Prop where
  float : ∀ p d, scan.scanFloat p = some d → d.length = 4
  double : ∀ p, (scan.atof p).length = 8

def missingPairs (scan : FloatScan) : ℕ → Bytes → ℕ
  | 0, _ => 0
  | n + 1, p =>
      (if scan.scanHex (p.drop 2) = none then 1 else 0) + missingPairs scan n (p.drop 2)

/-- The missing pairs of the values in a text of an `F4` or `F8` item. -/
def floatsMissing (scan : FloatScan) (width : ℕ) (convert : Bytes → Option Bytes) (p : Bytes) :
    ℕ :=
  let hex := firstByte p = chr '\\' ∧ secondByte p = chr 'x'
  if hex ∧ p.length ≠ 2 + 2 * width then 0
  else
    match if hex then some (hexBytes scan width p) else convert p with
    | none => 0
    | some _ =>
        let missing := if hex then missingPairs scan width p else 0
        let p := if hex then p.drop (2 * width) else p
        if _h : nextBlank p ≠ [] then missing + floatsMissing scan width convert (nextBlank p)
        else missing
termination_by p.length
decreasing_by
  refine (nextBlank_length _h).trans_le ?_
  by_cases hhex : hex
  · simp [p, hhex]
  · simp [p, hhex]

def SecsType.missing (scan : FloatScan) : SecsType → Bytes → ℕ
  | .elements .float4, text =>
      floatsMissing scan 4 (fun p => (scan.scanFloat p).map swap) (cString text)
  | .elements .float8, text =>
      floatsMissing scan 8 (fun p => some (swap (scan.atof p))) (cString text)
  | _, _ => 0

def SecsType.width : SecsType → ℕ
  | .elements t => t.width
  | _ => 1

/-- What is known of a conversion: the bytes it counts are those it adds and the missing ones, it
counts whole elements, and it stops only at an error. -/
structure Counts (width missing : ℕ) (c : Converted) : Prop where
  counted : c.numBytes = c.data.length + missing
  whole : width ∣ c.numBytes
  stop : c.stop = true → c.error = true

theorem Counts.one {width missing : ℕ} {data : Bytes} (h : data.length + missing = width) :
    Counts width missing ⟨data, width, false, false⟩ :=
  ⟨h.symm, dvd_rfl, fun h => absurd h Bool.false_ne_true⟩

theorem Counts.cons {width missing missing' : ℕ} {data : Bytes} {c : Converted}
    (h : data.length + missing = width) (hc : Counts width missing' c) :
    Counts width (missing + missing') ⟨data ++ c.data, width + c.numBytes, c.error, c.stop⟩ := by
  refine ⟨?_, Nat.dvd_add dvd_rfl hc.whole, hc.stop⟩
  have hcounted := hc.counted
  simp only [List.length_append]
  omega

section

variable (scan : FloatScan)

def missingBytes (t : SecsType) (texts : List Bytes) : ℕ :=
  (texts.map (t.missing scan)).sum

end

end ScOpen
