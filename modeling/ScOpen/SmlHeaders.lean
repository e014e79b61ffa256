import ScOpen.SecsEncodeTree
import ScOpen.MakeLogFits

/-!
# The encoding that is written

When every value has a place in its type and every length in its length bytes, what the encoder
writes is the SECS-II encoding. A walk through it meets the headers of the forest in order, and
its levels are those of the nested lists.
-/

namespace ScOpen

/-! ## Headers -/

theorem setSizeBytes_eq (n : ℕ) : setSizeBytes n = beBytes (minLengthBytes n) n := by
  have h8 : n >>> 8 = n / 256 := by
    rw [Nat.shiftRight_eq_div_pow]
  have h16 : n >>> 16 = n / 256 / 256 := by
    rw [Nat.shiftRight_eq_div_pow, Nat.div_div_eq_div_mul]
  have h₁ : (n ≤ 0xFF) = (n < 256) := propext (by omega)
  have h₂ : (n ≤ 0xFFFF) = (n < 256 ^ 2) := propext (by omega)
  simp only [setSizeBytes, minLengthBytes, h₁, h₂, h8, h16]
  split
  · rfl
  · split <;> rfl

theorem itemHeader_eq (t : SecsType) (n : ℕ) : itemHeader t n = minHeader t n := by
  rw [itemHeader, setSizeBytes_eq, minHeader, headerBytes, length_beBytes]

/-! ## Values in range -/

def Decimal.Kept (t : IntegerType) (d : Decimal) : Prop :=
  t.InRange d.value ∧ d.rejected t = false ∧ d.storedBytes t = integerBytes t.width d.value

/-- An unsigned number without a sign is stored as it is. -/
theorem Decimal.kept_unsigned {t : IntegerType} {d : Decimal} (ht : t.signed = false)
    (hsign : d.sign = .none) (hrange : t.InRange d.value) : d.Kept t := by
  have hwidth : (256 : ℤ) ^ t.width ≤ 2 ^ 64 := by
    cases t <;> decide
  have hrej : d.rejected t = false := by simp [Decimal.rejected, hsign]
  refine ⟨hrange, hrej, ?_⟩
  simp only [IntegerType.InRange, ht, Bool.false_eq_true, if_false, Decimal.value, hsign,
    if_true] at hrange
  have hmod : decimalValue d.digits % 2 ^ 64 = decimalValue d.digits := by
    apply Nat.mod_eq_of_lt
    have := hrange.2.trans_le hwidth
    exact_mod_cast this
  simp only [Decimal.storedBytes, hrej, Decimal.stored, ht, Decimal.value, hsign, hmod,
    Bool.false_eq_true, if_false, if_true]

/-- A signed number that an `int` has room for is stored as it is. -/
theorem Decimal.kept_signed {t : IntegerType} {d : Decimal} (ht : t.signed = true)
    (hrange : t.InRange d.value) (hint : -(2 ^ 31) ≤ d.value ∧ d.value < 2 ^ 31) : d.Kept t := by
  have hrej : d.rejected t = false := by simp [Decimal.rejected, ht]
  refine ⟨hrange, hrej, ?_⟩
  have hbmod : Int.bmod d.value (2 ^ 32) = d.value := by
    apply Int.bmod_eq_of_le
    · have := hint.1
      omega
    · have := hint.2
      omega
  simp only [Decimal.storedBytes, hrej, Decimal.stored, ht, if_true, Bool.false_eq_true, if_false,
    hbmod]

def Leaf.Kept : Leaf → Prop
  | .integers t vs => ∀ d ∈ vs, d.Kept t
  | _ => True

theorem Leaf.Kept.storedData {v : Leaf} (h : v.Kept) : v.storedData = v.data := by
  cases v with
  | integers t vs =>
      simp only [Leaf.storedData, Leaf.data]
      exact List.flatMap_congr fun d hd => (h d hd).2.2
  | _ => rfl

theorem Leaf.Kept.rejected {v : Leaf} (h : v.Kept) : v.rejected = false := by
  cases v with
  | integers t vs =>
      simp only [Leaf.rejected, List.any_eq_false]
      intro d hd
      simp [(h d hd).2.1]
  | _ => rfl

theorem Sml.All.mono {P Q : Leaf → Prop} (hPQ : ∀ v, P v → Q v) {f : Sml} (h : f.All P) :
    f.All Q := by
  induction f with
  | done => trivial
  | list kids next ihkids ihnext => exact ⟨ihkids h.1, ihnext h.2⟩
  | leaf v next ih => exact ⟨hPQ v h.1, ih h.2⟩

theorem Sml.stored_eq_encode {f : Sml} (hkept : f.All Leaf.Kept) (hsizes : f.SizesFit) :
    f.stored = f.encode := by
  induction f with
  | done => rfl
  | list kids next ihkids ihnext =>
      rw [Sml.stored, Sml.encode, itemHeader_eq, ihkids hkept.1 hsizes.2.1,
        ihnext hkept.2 hsizes.2.2]
  | leaf v next ih =>
      have hlt : v.data.length < 2 ^ 32 := hsizes.1.trans (by decide)
      rw [Sml.stored, Sml.encode, itemHeader_eq, hkept.1.storedData, Nat.mod_eq_of_lt hlt,
        ih hkept.2 hsizes.2]

/-! ## Walking through the encoding -/

def Sml.headers : Sml → List Header
  | .done => []
  | .list kids next => ⟨SecsType.list.code, kids.count⟩ :: (kids.headers ++ next.headers)
  | .leaf v next => ⟨v.secsType.code, v.data.length⟩ :: next.headers

theorem Leaf.ownBytes (v : Leaf) : v.secsType.ownBytes v.data.length = v.data.length := by
  have hdata := v.holdsData
  cases ht : v.secsType with
  | list =>
      rw [ht] at hdata
      exact hdata.elim
  | ascii => rfl
  | elements t =>
      rw [ht] at hdata
      exact Nat.mul_div_cancel' hdata

theorem Sml.walk_encode {f : Sml} (h : f.SizesFit) (tail : Bytes) :
    walk (f.encode ++ tail) = (f.headers ++ (walk tail).1, (walk tail).2) := by
  induction f generalizing tail with
  | done => rfl
  | list kids next ihkids ihnext =>
      have hheader := takeHeader_headerBytes (t := .list) (minLengthBytes_mem kids.count)
        (lt_pow_minLengthBytes h.1) (kids.encode ++ (next.encode ++ tail))
      rw [Sml.encode, minHeader, List.append_assoc, List.append_assoc, walk_some hheader]
      simp only [secsType?_code, SecsType.ownBytes, Nat.zero_le, if_true, List.drop_zero,
        ihkids h.2.1, ihnext h.2.2, Sml.headers, List.cons_append, List.append_assoc]
  | leaf v next ih =>
      have hheader := takeHeader_headerBytes (t := v.secsType) (minLengthBytes_mem v.data.length)
        (lt_pow_minLengthBytes h.1) (v.data ++ (next.encode ++ tail))
      rw [Sml.encode, minHeader, List.append_assoc, List.append_assoc, walk_some hheader]
      simp only [secsType?_code, v.ownBytes, List.length_append, Nat.le_add_right, if_true,
        List.drop_left, ih h.2, Sml.headers, List.cons_append]

theorem Sml.walk_encode_all {f : Sml} (h : f.SizesFit) :
    walk f.encode = (f.headers, .finished) := by
  have hwalk := Sml.walk_encode h []
  rwa [List.append_nil, walk_nil, List.append_nil] at hwalk

/-! ## Levels along the encoding -/

def framesPast (n : ℕ) (top : Frame) (below : List Frame) : List Frame :=
  if n = 0 then top :: below else closed (⟨sub32 top.e n, top.ie + n⟩ :: below)

theorem sub32_sub32 (e m n : ℕ) : sub32 (sub32 e m) n = sub32 e (m + n) := by
  unfold sub32
  omega

theorem closed_of_ne {f : Frame} (fs : List Frame) (h : f.e ≠ 0) : closed (f :: fs) = f :: fs := by
  simp [closed, h]

theorem closed_of_eq {f : Frame} (fs : List Frame) (h : f.e = 0) :
    closed (f :: fs) = closed fs := by
  simp [closed, h]

theorem framesPast_succ (n : ℕ) (top : Frame) (below : List Frame) :
    framesPast (n + 1) top below =
      if n = 0 then closed (⟨sub32 top.e 1, top.ie + 1⟩ :: below)
      else framesPast n ⟨sub32 top.e 1, top.ie + 1⟩ below := by
  rw [framesPast, if_neg (Nat.succ_ne_zero n)]
  split
  · rename_i hn
    rw [hn]
  · rename_i hn
    rw [framesPast, if_neg hn, sub32_sub32, Nat.add_comm n 1, Nat.add_assoc]

theorem Sml.eq_done_of_count {f : Sml} (h : f.count = 0) : f = .done := by
  cases f with
  | done => rfl
  | list kids next => simp [Sml.count] at h
  | leaf v next => simp [Sml.count] at h

/-- A list with items opens a level of its own. -/
theorem framesAfter_list {size : ℕ} (h : size ≠ 0) (top : Frame) (below : List Frame) :
    framesAfter .list size (top :: below) =
      ⟨size, 0⟩ :: ⟨sub32 top.e 1, top.ie + 1⟩ :: below := by
  rw [framesAfter, opened, if_pos ⟨rfl, h⟩, entered, closed_of_ne _ h]

/-- Any other item is counted on the level that it is on. -/
theorem framesAfter_of_not_list {t : SecsType} {size : ℕ} (h : ¬ (t = .list ∧ size ≠ 0))
    (top : Frame) (below : List Frame) :
    framesAfter t size (top :: below) = closed (⟨sub32 top.e 1, top.ie + 1⟩ :: below) := by
  rw [framesAfter, opened, if_neg h, entered]

/-- A list's own level is closed after its last item. -/
theorem framesPast_list {size : ℕ} (hpos : size ≠ 0) (hlt : size < 2 ^ 32) (fs : List Frame) :
    framesPast size ⟨size, 0⟩ fs = closed fs := by
  have hzero : sub32 size size = 0 := by
    rw [sub32_of_le le_rfl hlt, Nat.sub_self]
  rw [framesPast, if_neg hpos, closed_of_eq _ hzero]

theorem list_stays_open {size : ℕ} (hlt : size < 2 ^ 32) (i : ℕ) (hi : i < size) :
    sub32 size i ≠ 0 := by
  rw [sub32_of_le hi.le hlt]
  omega

theorem Leaf.secsType_ne_list (v : Leaf) : v.secsType ≠ .list := by
  cases v <;> simp [Leaf.secsType]

theorem padColumn_fits (top : Frame) (below : List Frame) :
    padColumn (top :: below) < logPadSize ↔ below.length ≤ 22 := by
  simp only [padColumn, logPadSize, List.length_cons]
  omega

/-- What follows an item goes on at its level, if anything does. -/
theorem logFits_next {next : Sml} {top : Frame} {below : List Frame} {hs : List Header}
    (hopen : ∀ i, 0 < i → i < next.count + 1 → sub32 top.e i ≠ 0)
    (ih : ∀ top' : Frame, (∀ i, 0 < i → i < next.count → sub32 top'.e i ≠ 0) →
      (LogFits (top' :: below) (next.headers ++ hs) ↔
        next.NestingFits 22 below.length ∧ LogFits (framesPast next.count top' below) hs)) :
    LogFits (closed (⟨sub32 top.e 1, top.ie + 1⟩ :: below)) (next.headers ++ hs) ↔
      next.NestingFits 22 below.length ∧ LogFits (framesPast (next.count + 1) top below) hs := by
  rw [framesPast_succ]
  by_cases hzero : next.count = 0
  · rw [if_pos hzero, Sml.eq_done_of_count hzero]
    simp [Sml.headers, Sml.NestingFits]
  · have hne : (⟨sub32 top.e 1, top.ie + 1⟩ : Frame).e ≠ 0 := hopen 1 one_pos (by omega)
    rw [if_neg hzero, closed_of_ne _ hne]
    refine ih _ fun i hi hlt => ?_
    rw [sub32_sub32]
    exact hopen (1 + i) (by omega) (by omega)

/-- The log of an encoding can be made as far as the lists are not nested too deeply. -/
theorem logFits_headers {f : Sml} (hsizes : f.SizesFit) (top : Frame) (below : List Frame)
    (hs : List Header) (hopen : ∀ i, 0 < i → i < f.count → sub32 top.e i ≠ 0) :
    LogFits (top :: below) (f.headers ++ hs) ↔
      f.NestingFits 22 below.length ∧ LogFits (framesPast f.count top below) hs := by
  induction f generalizing top below hs with
  | done => simp [Sml.headers, Sml.NestingFits, Sml.count, framesPast]
  | list kids next ihkids ihnext =>
      have hlt : kids.count < 2 ^ 32 := hsizes.1.trans (by decide)
      have hnext := logFits_next hopen fun top' => ihnext hsizes.2.2 top' below hs
      simp only [Sml.headers, Sml.NestingFits, List.cons_append, List.append_assoc, LogFits,
        padColumn_fits, secsType?_code, Option.some.injEq, forall_eq', Sml.count, and_assoc]
      refine and_congr_right fun _ => ?_
      by_cases hzero : kids.count = 0
      · rw [framesAfter_of_not_list (fun h => h.2 hzero), Sml.eq_done_of_count hzero]
        simpa [Sml.headers, Sml.NestingFits] using hnext
      · have hkids := ihkids hsizes.2.1 ⟨kids.count, 0⟩ (⟨sub32 top.e 1, top.ie + 1⟩ :: below)
          (next.headers ++ hs) fun i _ hi => list_stays_open hlt i hi
        rw [framesPast_list hzero hlt, List.length_cons] at hkids
        rw [framesAfter_list hzero, hkids, hnext]
  | leaf v next ih =>
      have hnext := logFits_next hopen fun top' => ih hsizes.2 top' below hs
      simp only [Sml.headers, Sml.NestingFits, List.cons_append, LogFits, padColumn_fits,
        secsType?_code, Option.some.injEq, forall_eq', Sml.count, and_assoc]
      refine and_congr_right fun _ => ?_
      rw [framesAfter_of_not_list fun h => v.secsType_ne_list h.1, hnext]

end ScOpen
