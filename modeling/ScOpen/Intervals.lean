import ScOpen.SortedArray

/-!
# Tables of intervals

A list of marks, each of which opens an interval under a name or opens none. An interval ends where
the next mark stands, and belongs to both of its ends, so that neighbours share a point. The tables
are in ascending order, and a search may return any interval that covers the key.
-/

namespace Intervals

structure Interval (ν κ : Type*) where
  name : ν
  lower : κ
  upper : κ

section

variable {ν κ : Type*}

def nextMark : List (κ × Option ν) → κ → κ
  | [], n => n
  | (k, _) :: _, _ => k

def intervals : List (κ × Option ν) → κ → List (Interval ν κ)
  | [], _ => []
  | (_, none) :: ms, n => intervals ms n
  | (k, some name) :: ms, n => ⟨name, k, nextMark ms n⟩ :: intervals ms n

variable [LinearOrder κ]

structure Marked (ms : List (κ × Option ν)) (n : κ) : Prop where
  ascending : ms.Pairwise fun a b => a.1 < b.1
  inside : ∀ m ∈ ms, m.1 ≤ n

structure Spans (ms : List (κ × Option ν)) (i x : κ) (name : ν) : Prop where
  opens : (x, some name) ∈ ms
  le : x ≤ i
  next : ∀ m ∈ ms, x < m.1 → i ≤ m.1

def Interval.Covers (s : Interval ν κ) (i : κ) : Prop := s.lower ≤ i ∧ i ≤ s.upper

structure Chain (xs : List (Interval ν κ)) : Prop where
  pairwise : xs.Pairwise fun a b => a.lower < b.lower ∧ a.upper ≤ b.lower
  nonempty : ∀ s ∈ xs, s.lower ≤ s.upper

def compareKey (i : κ) (s : Interval ν κ) : Ordering :=
  if i < s.lower then .lt else if s.upper < i then .gt else .eq

theorem compareKey_eq {i : κ} {s : Interval ν κ} : compareKey i s = .eq ↔ s.Covers i := by
  unfold compareKey
  split_ifs with hlower hupper
  · exact iff_of_false (fun h => by cases h) fun h => absurd h.1 (not_le.2 hlower)
  · exact iff_of_false (fun h => by cases h) fun h => absurd h.2 (not_le.2 hupper)
  · exact iff_of_true rfl ⟨not_lt.1 hlower, not_lt.1 hupper⟩

theorem compareKey_lt {i : κ} {s : Interval ν κ} : compareKey i s = .lt ↔ i < s.lower := by
  unfold compareKey
  split_ifs with hlower hupper
  · exact iff_of_true rfl hlower
  · exact iff_of_false (fun h => by cases h) hlower
  · exact iff_of_false (fun h => by cases h) hlower

theorem compareKey_gt {i : κ} {s : Interval ν κ} (h : s.lower ≤ s.upper) :
    compareKey i s = .gt ↔ s.upper < i := by
  unfold compareKey
  split_ifs with hlower hupper
  · exact iff_of_false (fun h => by cases h) (not_lt.2 (hlower.le.trans h))
  · exact iff_of_true rfl hupper
  · exact iff_of_false (fun h => by cases h) hupper

end

section

variable {ν κ : Type*} [LinearOrder κ] {ms : List (κ × Option ν)} {m : κ × Option ν} {n i x : κ}
  {name : ν}

theorem Marked.tail (h : Marked (m :: ms) n) : Marked ms n :=
  ⟨(List.pairwise_cons.1 h.ascending).2, fun a ha => h.inside a (List.mem_cons_of_mem m ha)⟩

/-- What lies in front of all marks lies in front of the first one. -/
theorem le_nextMark (h : Marked ms n) (hi : i ≤ n) :
    i ≤ nextMark ms n ↔ ∀ a ∈ ms, i ≤ a.1 := by
  cases ms with
  | nil => exact iff_of_true hi fun a ha => absurd ha List.not_mem_nil
  | cons m ms =>
      refine ⟨fun hle a ha => ?_, fun hle => hle m List.mem_cons_self⟩
      rcases List.mem_cons.1 ha with rfl | ha
      · exact hle
      · exact le_trans hle ((List.pairwise_cons.1 h.ascending).1 a ha).le

/-- The mark in front spans as far as the next one, and the others as they do without it. -/
theorem spans_cons (h : Marked (m :: ms) n) (hi : i ≤ n) :
    Spans (m :: ms) i x name ↔
      (m = (x, some name) ∧ x ≤ i ∧ i ≤ nextMark ms n) ∨ Spans ms i x name := by
  obtain ⟨hfirst, -⟩ := List.pairwise_cons.1 h.ascending
  rw [le_nextMark h.tail hi]
  constructor
  · rintro ⟨hopens, hle, hnext⟩
    rcases List.mem_cons.1 hopens with rfl | hopens
    · exact .inl ⟨rfl, hle, fun a ha => hnext a (List.mem_cons_of_mem _ ha) (hfirst a ha)⟩
    · exact .inr ⟨hopens, hle, fun a ha => hnext a (List.mem_cons_of_mem _ ha)⟩
  · rintro (⟨rfl, hle, hnext⟩ | ⟨hopens, hle, hnext⟩)
    · refine ⟨List.mem_cons_self, hle, fun a ha hlt => ?_⟩
      rcases List.mem_cons.1 ha with rfl | ha
      · exact absurd hlt (lt_irrefl _)
      · exact hnext a ha
    · refine ⟨List.mem_cons_of_mem _ hopens, hle, fun a ha hlt => ?_⟩
      rcases List.mem_cons.1 ha with rfl | ha
      · exact absurd (hlt.trans (hfirst _ hopens)) (lt_irrefl _)
      · exact hnext a ha hlt

/-- The intervals that cover a key are those of the marks that span to it. -/
theorem covers_iff_spans (h : Marked ms n) (hi : i ≤ n) :
    (∃ s ∈ intervals ms n, s.Covers i ∧ s.lower = x ∧ s.name = name) ↔ Spans ms i x name := by
  induction ms with
  | nil =>
      refine iff_of_false ?_ fun hspans => List.not_mem_nil hspans.opens
      rintro ⟨s, hs, -⟩
      exact List.not_mem_nil hs
  | cons m ms ih =>
      rw [spans_cons h hi, ← ih h.tail]
      rcases m with ⟨k, _ | label⟩
      · refine ⟨.inr, fun hcovers => hcovers.resolve_left ?_⟩
        rintro ⟨heq, -⟩
        cases heq
      · constructor
        · rintro ⟨s, hs, hcovers, rfl, rfl⟩
          rcases List.mem_cons.1 hs with rfl | hs
          · exact .inl ⟨rfl, hcovers.1, hcovers.2⟩
          · exact .inr ⟨s, hs, hcovers, rfl, rfl⟩
        · rintro (⟨heq, hle, hnext⟩ | ⟨s, hs, hcovers⟩)
          · cases heq
            exact ⟨_, List.mem_cons_self, ⟨hle, hnext⟩, rfl, rfl⟩
          · exact ⟨s, List.mem_cons_of_mem _ hs, hcovers⟩

omit [LinearOrder κ] in
theorem intervals_lower {s : Interval ν κ} (hs : s ∈ intervals ms n) :
    ∃ a ∈ ms, a.1 = s.lower := by
  induction ms with
  | nil => exact absurd hs List.not_mem_nil
  | cons m ms ih =>
      rcases m with ⟨k, _ | label⟩
      · obtain ⟨a, ha, heq⟩ := ih hs
        exact ⟨a, List.mem_cons_of_mem _ ha, heq⟩
      · rcases List.mem_cons.1 hs with rfl | hs
        · exact ⟨_, List.mem_cons_self, rfl⟩
        · obtain ⟨a, ha, heq⟩ := ih hs
          exact ⟨a, List.mem_cons_of_mem _ ha, heq⟩

theorem chain_intervals (h : Marked ms n) : Chain (intervals ms n) := by
  induction ms with
  | nil => exact ⟨List.Pairwise.nil, fun s hs => absurd hs List.not_mem_nil⟩
  | cons m ms ih =>
      obtain ⟨hpairwise, hnonempty⟩ := ih h.tail
      obtain ⟨hfirst, -⟩ := List.pairwise_cons.1 h.ascending
      rcases m with ⟨k, _ | label⟩
      · exact ⟨hpairwise, hnonempty⟩
      · have hk : k ≤ n := h.inside _ List.mem_cons_self
        have hends : k ≤ nextMark ms n :=
          (le_nextMark h.tail hk).2 fun a ha => (hfirst a ha).le
        have hfollows : ∀ s ∈ intervals ms n, k < s.lower ∧ nextMark ms n ≤ s.lower := by
          intro s hs
          obtain ⟨a, ha, heq⟩ := intervals_lower hs
          refine ⟨heq ▸ hfirst a ha, heq ▸ ?_⟩
          cases ms with
          | nil => exact absurd ha List.not_mem_nil
          | cons b ms =>
              rcases List.mem_cons.1 ha with rfl | ha
              · exact le_rfl
              · exact ((List.pairwise_cons.1 h.tail.ascending).1 a ha).le
        refine ⟨List.pairwise_cons.2 ⟨hfollows, hpairwise⟩, fun s hs => ?_⟩
        rcases List.mem_cons.1 hs with rfl | hs
        · exact hends
        · exact hnonempty s hs

/-- A chain is in order for a search of any key. -/
theorem Chain.order {xs : List (Interval ν κ)} (h : Chain xs) (i : κ) (j k : ℕ)
    (s t : Interval ν κ) (hjk : j ≤ k) (hs : xs[j]? = some s) (ht : xs[k]? = some t) :
    (compareKey i s = .lt → compareKey i t = .lt) ∧
      (compareKey i t = .gt → compareKey i s = .gt) := by
  obtain ⟨hj, rfl⟩ := List.getElem?_eq_some_iff.1 hs
  obtain ⟨hk, rfl⟩ := List.getElem?_eq_some_iff.1 ht
  rcases hjk.lt_or_eq with hlt | rfl
  · obtain ⟨hlower, hupper⟩ := List.pairwise_iff_getElem.1 h.pairwise j k hj hk hlt
    have hnonempty := h.nonempty _ (List.getElem_mem hk)
    rw [compareKey_lt, compareKey_lt, compareKey_gt (h.nonempty _ (List.getElem_mem hj)),
      compareKey_gt hnonempty]
    refine ⟨fun hi => hi.trans hlower, fun hi => ?_⟩
    exact (hupper.trans hnonempty).trans_lt hi
  · exact ⟨id, id⟩

end

end Intervals
