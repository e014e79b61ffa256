import Mathlib.Data.List.Sort
import Mathlib.Order.Compare

/-!
# Sorted arrays

Arrays in ascending order of a key, possibly with several elements of one key. The search and the
sort are given by their contracts only: a search learns nothing of the array but its length and
how the key compares with each element, and a sort returns some ascending arrangement. A linear
scan finds the place of a new element.
-/

namespace SortedArray

/-- The elements below the key come first, then those equal to it, then those above. -/
def Ascending (c : ℕ → Ordering) (n : ℕ) : Prop :=
  ∀ i j, i ≤ j → j < n → (c i = .lt → c j = .lt) ∧ (c j = .gt → c i = .gt)

/-- A search of `n` elements, given how the key compares with the element at an index. -/
structure Search where
  run : (ℕ → Ordering) → ℕ → Option ℕ
  found : ∀ {c n i}, run c n = some i → i < n ∧ c i = .eq
  complete : ∀ {c n i}, Ascending c n → i < n → c i = .eq → ∃ j, run c n = some j

/-- A sort that may arrange equal elements as it likes. -/
structure Arrange (α : Type*) where
  run : (α → α → Ordering) → List α → List α
  perm : ∀ cmp xs, (run cmp xs).Perm xs
  ascending : ∀ cmp xs, (∀ a b c, cmp a b ≠ .gt → cmp b c ≠ .gt → cmp a c ≠ .gt) →
    (∀ a b, cmp a b ≠ .gt ∨ cmp b a ≠ .gt) → (run cmp xs).Pairwise fun a b => cmp a b ≠ .gt

/-! ## Bisection -/

def bisect (c : ℕ → Ordering) : ℕ → ℕ → ℕ → Option ℕ
  | 0, _, _ => none
  | fuel + 1, l, u =>
      if l < u then
        match c ((l + u) / 2) with
        | .lt => bisect c fuel l ((l + u) / 2)
        | .gt => bisect c fuel ((l + u) / 2 + 1) u
        | .eq => some ((l + u) / 2)
      else none

theorem bisect_found {c : ℕ → Ordering} {fuel l u i : ℕ} (h : bisect c fuel l u = some i) :
    i < u ∧ c i = .eq := by
  induction fuel generalizing l u with
  | zero => cases h
  | succ fuel ih =>
      rw [bisect] at h
      by_cases hlu : l < u
      · rw [if_pos hlu] at h
        cases hc : c ((l + u) / 2) with
        | lt =>
            rw [hc] at h
            obtain ⟨hi, heq⟩ := ih h
            exact ⟨by omega, heq⟩
        | gt =>
            rw [hc] at h
            exact ih h
        | eq =>
            rw [hc] at h
            cases h
            exact ⟨by omega, hc⟩
      · rw [if_neg hlu] at h
        cases h

theorem bisect_complete {c : ℕ → Ordering} {n i : ℕ} (hc : Ascending c n) (heq : c i = .eq)
    {fuel l u : ℕ} (hfuel : u - l ≤ fuel) (hl : l ≤ i) (hi : i < u) (hu : u ≤ n) :
    ∃ j, bisect c fuel l u = some j := by
  induction fuel generalizing l u with
  | zero => omega
  | succ fuel ih =>
      have hlu : l < u := by omega
      rw [bisect, if_pos hlu]
      cases hm : c ((l + u) / 2) with
      | lt =>
          have hlt : i < (l + u) / 2 := by
            by_contra hge
            have habove := (hc ((l + u) / 2) i (by omega) (by omega)).1 hm
            rw [heq] at habove
            cases habove
          exact ih (by omega) hl hlt (by omega)
      | gt =>
          have hlt : (l + u) / 2 < i := by
            by_contra hge
            have hbelow := (hc i ((l + u) / 2) (by omega) (by omega)).2 hm
            rw [heq] at hbelow
            cases hbelow
          exact ih (by omega) hlt hi hu
      | eq => exact ⟨_, rfl⟩

def bisection : Search where
  run c n := bisect c n 0 n
  found h := bisect_found h
  complete hc hi heq := bisect_complete hc heq (by omega) (Nat.zero_le _) hi le_rfl

def prefer (j : ℕ) : Search where
  run c n := if j < n ∧ c j = .eq then some j else bisect c n 0 n
  found {c n i} h := by
    split_ifs at h with hj
    · cases h
      exact hj
    · exact bisect_found h
  complete {c n i} hc hi heq := by
    split_ifs with hj
    · exact ⟨j, rfl⟩
    · exact bisect_complete hc heq (by omega) (Nat.zero_le _) hi le_rfl

def insertion (α : Type*) : Arrange α where
  run cmp xs := xs.insertionSort fun a b => cmp a b ≠ .gt
  perm cmp xs := xs.perm_insertionSort _
  ascending cmp xs htrans htotal := by
    have : IsTrans α fun a b => cmp a b ≠ .gt := ⟨htrans⟩
    have : Std.Total fun a b : α => cmp a b ≠ .gt := ⟨htotal⟩
    exact List.pairwise_insertionSort _ xs

/-! ## Arrays in the order of a key -/

section

variable {α κ : Type*}

def find (s : Search) (cmp : α → α → Ordering) (a : α) (xs : List α) : Option ℕ :=
  s.run (fun i => match xs[i]? with
    | some x => cmp a x
    | none => .lt) xs.length

def place (cmp : α → α → Ordering) (a : α) : List α → ℕ
  | [] => 0
  | x :: xs => if cmp x a = .lt then place cmp a xs + 1 else 0

def insertAt (i : ℕ) (a : α) (xs : List α) : List α := xs.take i ++ a :: xs.drop i

theorem perm_insertAt (i : ℕ) (a : α) (xs : List α) : (insertAt i a xs).Perm (a :: xs) := by
  unfold insertAt
  refine List.perm_middle.trans ?_
  rw [List.take_append_drop]

theorem insertAt_zero (a : α) (xs : List α) : insertAt 0 a xs = a :: xs := rfl

theorem insertAt_succ (i : ℕ) (a x : α) (xs : List α) :
    insertAt (i + 1) a (x :: xs) = x :: insertAt i a xs := rfl

theorem find_some {s : Search} {cmp : α → α → Ordering} {a : α} {xs : List α} {i : ℕ}
    (h : find s cmp a xs = some i) : ∃ x, xs[i]? = some x ∧ cmp a x = .eq := by
  obtain ⟨hi, heq⟩ := s.found h
  rw [List.getElem?_eq_getElem hi] at heq
  exact ⟨xs[i], List.getElem?_eq_getElem hi, heq⟩

/-- What holds whatever search is used, in an array that is in order: it holds of every element
that compares equal, and of no element if there is none. -/
theorem forall_find_iff {cmp : α → α → Ordering} {a : α} {xs : List α}
    (horder : ∀ (i j : ℕ) (x y : α), i ≤ j → xs[i]? = some x → xs[j]? = some y →
      (cmp a x = .lt → cmp a y = .lt) ∧ (cmp a y = .gt → cmp a x = .gt))
    (P : Option α → Prop) :
    (∀ s, P ((find s cmp a xs).bind fun i => xs[i]?)) ↔
      (∀ x ∈ xs, cmp a x = .eq → P (some x)) ∧ ((∀ x ∈ xs, cmp a x ≠ .eq) → P none) := by
  have hasc : Ascending (fun i => match xs[i]? with
      | some x => cmp a x
      | none => .lt) xs.length := by
    intro i j hij hj
    have hi : i < xs.length := by omega
    have hpair := horder i j _ _ hij (List.getElem?_eq_getElem hi) (List.getElem?_eq_getElem hj)
    simp only [List.getElem?_eq_getElem hi, List.getElem?_eq_getElem hj]
    exact hpair
  constructor
  · intro hall
    refine ⟨fun x hx heq => ?_, fun hnone => ?_⟩
    · obtain ⟨j, hj, rfl⟩ := List.getElem_of_mem hx
      have hpick : find (prefer j) cmp a xs = some j := by
        refine if_pos ⟨hj, ?_⟩
        simp only [List.getElem?_eq_getElem hj, heq]
      have hfound := hall (prefer j)
      rw [hpick, Option.bind_some, List.getElem?_eq_getElem hj] at hfound
      exact hfound
    · have hmiss : find bisection cmp a xs = none := by
        cases hfind : find bisection cmp a xs with
        | none => rfl
        | some i =>
            obtain ⟨x, hx, heq⟩ := find_some hfind
            exact absurd heq (hnone x (List.mem_of_getElem? hx))
      have hfound := hall bisection
      rw [hmiss] at hfound
      exact hfound
  · rintro ⟨hsome, hnone⟩ s
    cases hfind : find s cmp a xs with
    | some i =>
        obtain ⟨x, hx, heq⟩ := find_some hfind
        rw [Option.bind_some, hx]
        exact hsome x (List.mem_of_getElem? hx) heq
    | none =>
        refine hnone fun x hx heq => ?_
        obtain ⟨i, hi, rfl⟩ := List.getElem_of_mem hx
        obtain ⟨j, hj⟩ := s.complete hasc hi (by simp only [List.getElem?_eq_getElem hi, heq])
        rw [find, hj] at hfind
        cases hfind

/-- What an element shares with the one it replaces stays where it is. -/
theorem map_set {β : Type*} {f : α → β} {x y : α} {xs : List α} {i : ℕ} (hx : xs[i]? = some x)
    (heq : f y = f x) : (xs.set i y).map f = xs.map f := by
  rw [List.map_set, heq]
  apply List.ext_getElem?
  intro j
  rw [List.getElem?_set]
  by_cases hij : i = j
  · subst hij
    have hi : i < (xs.map f).length := by
      rw [List.length_map]
      exact (List.getElem?_eq_some_iff.1 hx).1
    rw [if_pos rfl, if_pos hi, List.getElem?_map, hx]
    rfl
  · rw [if_neg hij]

/-- What a filter leaves out may be inserted and replaced. -/
theorem filter_insertAt {p : α → Bool} {a : α} (ha : p a = false) (i : ℕ) (xs : List α) :
    (insertAt i a xs).filter p = xs.filter p := by
  rw [insertAt, List.filter_append, List.filter_cons_of_neg (by rw [ha]; exact Bool.false_ne_true),
    ← List.filter_append, List.take_append_drop]

theorem filter_set {p : α → Bool} {x y : α} {xs : List α} {i : ℕ} (hx : xs[i]? = some x)
    (hpx : p x = false) (hpy : p y = false) : (xs.set i y).filter p = xs.filter p := by
  induction xs generalizing i with
  | nil => rfl
  | cons z xs ih =>
      cases i with
      | zero =>
          cases hx
          rw [List.set_cons_zero, List.filter_cons, hpy, List.filter_cons, hpx]
          rfl
      | succ i =>
          rw [List.set_cons_succ, List.filter_cons, List.filter_cons, ih hx]

variable [LinearOrder κ] {cmp : α → α → Ordering} {key : α → κ}

def Sorted (key : α → κ) (xs : List α) : Prop := xs.Pairwise fun a b => key a ≤ key b

theorem ascending_compare {xs : List α} (hs : Sorted key xs) (k : κ) :
    Ascending (fun i => match xs[i]? with
      | some x => compare k (key x)
      | none => .lt) xs.length := by
  intro i j hij hj
  have hi : i < xs.length := by omega
  simp only [List.getElem?_eq_getElem hi, List.getElem?_eq_getElem hj]
  have hle : key xs[i] ≤ key xs[j] := by
    rcases hij.lt_or_eq with hlt | rfl
    · exact List.pairwise_iff_getElem.1 hs i j hi hj hlt
    · exact le_rfl
  constructor
  · intro h
    exact compare_lt_iff_lt.2 ((compare_lt_iff_lt.1 h).trans_le hle)
  · intro h
    exact compare_gt_iff_gt.2 (hle.trans_lt (compare_gt_iff_gt.1 h))

variable (hcmp : ∀ a b, cmp a b = compare (key a) (key b))

include hcmp

theorem find_exists {s : Search} {a x : α} {xs : List α} (hs : Sorted key xs) (hx : x ∈ xs)
    (heq : key a = key x) : ∃ i, find s cmp a xs = some i := by
  obtain ⟨i, hi, rfl⟩ := List.getElem_of_mem hx
  have hasc := ascending_compare hs (key a)
  simp only [← hcmp] at hasc
  refine s.complete hasc hi ?_
  simp only [List.getElem?_eq_getElem hi, hcmp]
  exact compare_eq_iff_eq.2 heq

/-- The search depends on the keys only. -/
theorem find_congr {s : Search} {a : α} {xs ys : List α} (h : xs.map key = ys.map key) :
    find s cmp a xs = find s cmp a ys := by
  have hlen : xs.length = ys.length := by
    have hlengths := congrArg List.length h
    rwa [List.length_map, List.length_map] at hlengths
  unfold find
  rw [hlen]
  congr 1
  funext i
  have hi := congrArg (·[i]?) h
  simp only [List.getElem?_map] at hi
  cases hx : xs[i]? with
  | none =>
      rw [hx] at hi
      cases hy : ys[i]? with
      | none => rfl
      | some y =>
          rw [hy] at hi
          cases hi
  | some x =>
      rw [hx] at hi
      cases hy : ys[i]? with
      | none =>
          rw [hy] at hi
          cases hi
      | some y =>
          rw [hy] at hi
          simp only [hcmp, Option.some.inj hi]

theorem sorted_place {a : α} {xs : List α} (hs : Sorted key xs) :
    Sorted key (insertAt (place cmp a xs) a xs) := by
  induction xs with
  | nil => exact List.pairwise_singleton _ _
  | cons x xs ih =>
      obtain ⟨hx, hxs⟩ := List.pairwise_cons.1 hs
      rw [place]
      by_cases hlt : cmp x a = .lt
      · rw [if_pos hlt, insertAt_succ]
        rw [hcmp, compare_lt_iff_lt] at hlt
        refine List.pairwise_cons.2 ⟨?_, ih hxs⟩
        intro y hy
        rcases List.mem_cons.1 ((perm_insertAt _ a xs).mem_iff.1 hy) with rfl | hmem
        · exact hlt.le
        · exact hx y hmem
      · rw [if_neg hlt, insertAt_zero]
        rw [hcmp, compare_lt_iff_lt, not_lt] at hlt
        refine List.pairwise_cons.2 ⟨?_, hs⟩
        intro y hy
        rcases List.mem_cons.1 hy with rfl | hmem
        · exact hlt
        · exact hlt.trans (hx y hmem)

theorem sorted_arrange (sort : Arrange α) (xs : List α) : Sorted key (sort.run cmp xs) := by
  have hle : ∀ a b, cmp a b ≠ .gt ↔ key a ≤ key b := by
    intro a b
    rw [hcmp]
    exact compare_le_iff_le
  have h := sort.ascending cmp xs (fun a b c hab hbc => ?_) (fun a b => ?_)
  · exact h.imp fun hab => (hle _ _).1 hab
  · rw [hle] at hab hbc ⊢
    exact hab.trans hbc
  · rw [hle, hle]
    exact le_total _ _

omit hcmp

/-- An element may be replaced by one of the same key. -/
theorem sorted_set {x y : α} {xs : List α} {i : ℕ} (hs : Sorted key xs) (hx : xs[i]? = some x)
    (heq : key y = key x) : Sorted key (xs.set i y) := by
  have hmapped : (xs.map key).Pairwise (· ≤ ·) := List.pairwise_map.2 hs
  rw [← map_set hx heq] at hmapped
  exact List.pairwise_map.1 hmapped

end

end SortedArray
