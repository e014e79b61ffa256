import ScOpen.Intervals
import ScOpen.MemoryBytes
import ScOpen.ProgramTokens

/-!
# The label in force

When a program has been read, a table is built of where its labels are in force: from the end of
the name of a label to the end of the name of the next one, or to the end of an END, or of the
program. Local variables are named by the label that a binary search finds for an index.
-/

namespace ScOpen

/-- An entry of the table, with the first and the last index of the label. -/
abbrev Label := Intervals.Interval Bytes ℕ

/-- `name`, `lower_idx` and the table in `label_build_idx_table()`; there is no lower index where
the code has -1. -/
structure LabelScan where
  name : Bytes
  lower : Option ℕ
  table : List Label

/-- `label_put()` for the label that is open. -/
def LabelScan.put (s : LabelScan) (upper : ℕ) : List Label :=
  match s.lower with
  | none => s.table
  | some lower => s.table ++ [⟨cString s.name, lower, upper⟩]

def LabelScan.openLabel (s : LabelScan) (name : Bytes) (idx : ℕ) : LabelScan :=
  ⟨name, some idx, s.put idx⟩

def LabelScan.close (s : LabelScan) (idx : ℕ) : LabelScan := ⟨s.name, none, s.put idx⟩

def Token.Labels (t : Token) : Prop := t.type = .after_ ∨ t.type = .label

instance (t : Token) : Decidable t.Labels := inferInstanceAs (Decidable (_ ∨ _))

def buildLoop : ℕ → List Token → LabelScan → ℕ × LabelScan
  | idx, [], s => (0, s.close idx)
  | idx, t :: ts, s =>
      if t.Labels then
        match ts with
        | [] => (1, s)
        | u :: us =>
            if u.type = .identifier then buildLoop (idx + 2) us (s.openLabel u.text (idx + 2))
            else (1, s)
      else if t.type = .end_ then buildLoop (idx + 1) ts (s.close (idx + 1))
      else if t.type = .nullToken then (0, s.close (idx + 1))
      else buildLoop (idx + 1) ts s

def labelBuildIdxTable (tokens : List Token) : ℕ × List Label :=
  ((buildLoop 0 tokens ⟨[], none, []⟩).1, (buildLoop 0 tokens ⟨[], none, []⟩).2.table)

/-- `idx_cmp()`. -/
def idxCmp (i j : Label) : Ordering :=
  if i.lower < j.lower then .lt else if j.upper < i.lower then .gt else .eq

/-- `label_get()`, given `bsearch()`. -/
def labelGet (search : SortedArray.Search) (table : List Label) (idx : ℕ) : Bytes :=
  ((SortedArray.find search idxCmp ⟨[], idx, 0⟩ table).bind fun i => table[i]?).elim []
    Intervals.Interval.name

/-! ## The labels of a program -/

def LabelEnds (tokens : List Token) (idx : ℕ) (name : Bytes) : Prop :=
  ∃ j t u, idx = j + 2 ∧ tokens[j]? = some t ∧ t.Labels ∧ tokens[j + 1]? = some u ∧
    u.type = .identifier ∧ name = cString u.text

def EndEnds (tokens : List Token) (idx : ℕ) : Prop :=
  ∃ j t, idx = j + 1 ∧ tokens[j]? = some t ∧ t.type = .end_

structure LabelsNamed (tokens : List Token) : Prop where
  named : ∀ j t, tokens[j]? = some t → t.Labels →
    ∃ u, tokens[j + 1]? = some u ∧ u.type = .identifier
  stored : ∀ t ∈ tokens, t.type ≠ .nullToken

/-- A label whose name ends at or before the index, with no `END` token after it that ends before
the index. -/
structure LabelOpen (tokens : List Token) (idx e : ℕ) (name : Bytes) : Prop where
  ends : LabelEnds tokens e name
  le : e ≤ idx
  open_ : ∀ k, EndEnds tokens k → e < k → idx ≤ k

def LabelRight (tokens : List Token) (idx : ℕ) (name : Bytes) : Prop :=
  (∃ e, LabelOpen tokens idx e name ∧ ∀ e' name', LabelOpen tokens idx e' name' → e' ≤ e) ∨
    (name = [] ∧ ∀ e name', ¬ LabelOpen tokens idx e name')

def LabelShared (tokens : List Token) (idx : ℕ) : Prop :=
  ∃ name e name', LabelEnds tokens idx name ∧ LabelOpen tokens idx e name' ∧ e < idx ∧
    (∀ e' name', LabelEnds tokens e' name' → e < e' → idx ≤ e') ∧ name ≠ name'

/-- The indices at which a label begins or an `END` ends, the first with the label's name. -/
def labelMarks : ℕ → List Token → List (ℕ × Option Bytes)
  | _, [] => []
  | idx, [t] => if t.type = .end_ then [(idx + 1, none)] else []
  | idx, t :: u :: us =>
      if t.Labels then (idx + 2, some (cString u.text)) :: labelMarks (idx + 2) us
      else if t.type = .end_ then (idx + 1, none) :: labelMarks (idx + 1) (u :: us)
      else labelMarks (idx + 1) (u :: us)

def LabelScan.marks (s : LabelScan) : List (ℕ × Option Bytes) :=
  match s.lower with
  | none => []
  | some lower => [(lower, some (cString s.name))]

section

variable {tokens us : List Token} {t u : Token} {idx k : ℕ} {name : Bytes}

theorem LabelsNamed.tail (h : LabelsNamed (t :: tokens)) : LabelsNamed tokens :=
  ⟨fun j v hv => h.named (j + 1) v hv, fun v hv => h.stored v (List.mem_cons_of_mem t hv)⟩

theorem LabelsNamed.head (h : LabelsNamed (t :: tokens)) (ht : t.Labels) :
    ∃ u us, tokens = u :: us ∧ u.type = .identifier := by
  obtain ⟨u, hu, htype⟩ := h.named 0 t rfl ht
  cases tokens with
  | nil => cases hu
  | cons v us =>
      cases hu
      exact ⟨u, us, rfl, htype⟩

theorem not_labels_of_identifier (h : u.type = .identifier) : ¬ u.Labels := by
  rw [Token.Labels, h]
  decide

theorem not_end_of_labels (h : t.Labels) : t.type ≠ .end_ := by
  rcases h with h | h <;> rw [h] <;> decide

theorem labelEnds_nil : ¬ LabelEnds [] idx name := by
  rintro ⟨j, t, u, -, ht, -⟩
  cases ht

theorem endEnds_nil : ¬ EndEnds [] idx := by
  rintro ⟨j, t, -, ht, -⟩
  cases ht

theorem labelEnds_cons :
    LabelEnds (t :: tokens) idx name ↔
      (t.Labels ∧ idx = 2 ∧
        ∃ u us, tokens = u :: us ∧ u.type = .identifier ∧ name = cString u.text) ∨
        ∃ e, idx = e + 1 ∧ LabelEnds tokens e name := by
  constructor
  · rintro ⟨_ | j, v, u, rfl, hv, hlabels, hu, hname⟩
    · cases hv
      cases tokens with
      | nil => cases hu
      | cons w us =>
          cases hu
          exact .inl ⟨hlabels, rfl, u, us, rfl, hname⟩
    · exact .inr ⟨j + 2, rfl, j, v, u, rfl, hv, hlabels, hu, hname⟩
  · rintro (⟨hlabels, rfl, u, us, rfl, hname⟩ | ⟨e, rfl, j, v, u, rfl, hv, hlabels, hu, hname⟩)
    · exact ⟨0, t, u, rfl, rfl, hlabels, rfl, hname⟩
    · exact ⟨j + 1, v, u, rfl, hv, hlabels, hu, hname⟩

theorem endEnds_cons :
    EndEnds (t :: tokens) idx ↔
      (t.type = .end_ ∧ idx = 1) ∨ ∃ e, idx = e + 1 ∧ EndEnds tokens e := by
  constructor
  · rintro ⟨_ | j, v, rfl, hv, hend⟩
    · cases hv
      exact .inl ⟨hend, rfl⟩
    · exact .inr ⟨j + 1, rfl, j, v, rfl, hv, hend⟩
  · rintro (⟨hend, rfl⟩ | ⟨e, rfl, j, v, rfl, hv, hend⟩)
    · exact ⟨0, t, rfl, rfl, hend⟩
    · exact ⟨j + 1, v, rfl, hv, hend⟩

/-- The marks of labels stand where their names end. -/
theorem some_mem_labelMarks (h : LabelsNamed tokens) :
    (k, some name) ∈ labelMarks idx tokens ↔ ∃ e, k = idx + e ∧ LabelEnds tokens e name := by
  induction idx, tokens using labelMarks.induct with
  | case1 idx =>
      refine iff_of_false List.not_mem_nil ?_
      rintro ⟨e, -, hends⟩
      exact labelEnds_nil hends
  | case2 idx t hend | case3 idx t hend =>
      have hnot : ¬ t.Labels := by
        intro hlabels
        obtain ⟨u, us, hnil, -⟩ := h.head hlabels
        cases hnil
      rw [labelMarks]
      refine iff_of_false ?_ ?_
      · split_ifs
        simp
      · rintro ⟨e, -, hends⟩
        rcases labelEnds_cons.1 hends with ⟨hlabels, -⟩ | ⟨e', -, hrest⟩
        · exact hnot hlabels
        · exact labelEnds_nil hrest
  | case4 idx t u us hlabels ih =>
      obtain ⟨_, _, hcons, hidentifier⟩ := h.head hlabels
      cases hcons
      have hu := not_labels_of_identifier hidentifier
      rw [labelMarks, if_pos hlabels, List.mem_cons, ih h.tail.tail]
      constructor
      · rintro (heq | ⟨e, rfl, hends⟩)
        · cases heq
          exact ⟨2, rfl, labelEnds_cons.2 (.inl ⟨hlabels, rfl, u, us, rfl, hidentifier, rfl⟩)⟩
        · refine ⟨e + 2, by omega, labelEnds_cons.2 (.inr ⟨e + 1, rfl, ?_⟩)⟩
          exact labelEnds_cons.2 (.inr ⟨e, rfl, hends⟩)
      · rintro ⟨e, rfl, hends⟩
        rcases labelEnds_cons.1 hends with ⟨-, rfl, v, vs, heq, -, rfl⟩ | ⟨e, rfl, hrest⟩
        · cases heq
          exact .inl rfl
        rcases labelEnds_cons.1 hrest with ⟨hlabels', -⟩ | ⟨e, rfl, hbehind⟩
        · exact absurd hlabels' hu
        · exact .inr ⟨e, by omega, hbehind⟩
  | case5 idx t u us hlabels hend ih | case6 idx t u us hlabels hend ih =>
      rw [labelMarks, if_neg hlabels]
      have htail : (k, some name) ∈ labelMarks (idx + 1) (u :: us) ↔
          ∃ e, k = idx + e ∧ LabelEnds (t :: u :: us) e name := by
        rw [ih h.tail]
        constructor
        · rintro ⟨e, rfl, hends⟩
          exact ⟨e + 1, by omega, labelEnds_cons.2 (.inr ⟨e, rfl, hends⟩)⟩
        · rintro ⟨e, rfl, hends⟩
          rcases labelEnds_cons.1 hends with ⟨hlabels', -⟩ | ⟨e, rfl, hrest⟩
          · exact absurd hlabels' hlabels
          · exact ⟨e, by omega, hrest⟩
      rw [← htail]
      split_ifs
      simp

/-- The marks of ends stand where the tokens end. -/
theorem none_mem_labelMarks (h : LabelsNamed tokens) :
    (k, none) ∈ labelMarks idx tokens ↔ ∃ e, k = idx + e ∧ EndEnds tokens e := by
  induction idx, tokens using labelMarks.induct with
  | case1 idx =>
      refine iff_of_false List.not_mem_nil ?_
      rintro ⟨e, -, hends⟩
      exact endEnds_nil hends
  | case2 idx t hend =>
      rw [labelMarks, if_pos hend, List.mem_singleton]
      constructor
      · intro heq
        cases heq
        exact ⟨1, rfl, endEnds_cons.2 (.inl ⟨hend, rfl⟩)⟩
      · rintro ⟨e, rfl, hends⟩
        rcases endEnds_cons.1 hends with ⟨-, rfl⟩ | ⟨e', -, hrest⟩
        · rfl
        · exact absurd hrest endEnds_nil
  | case3 idx t hend =>
      rw [labelMarks, if_neg hend]
      refine iff_of_false List.not_mem_nil ?_
      rintro ⟨e, -, hends⟩
      rcases endEnds_cons.1 hends with ⟨hend', -⟩ | ⟨e', -, hrest⟩
      · exact hend hend'
      · exact endEnds_nil hrest
  | case4 idx t u us hlabels ih =>
      obtain ⟨_, _, hcons, hidentifier⟩ := h.head hlabels
      cases hcons
      have hu : u.type ≠ .end_ := by
        rw [hidentifier]
        decide
      rw [labelMarks, if_pos hlabels, List.mem_cons, ih h.tail.tail]
      constructor
      · rintro (heq | ⟨e, rfl, hends⟩)
        · cases heq
        · refine ⟨e + 2, by omega, endEnds_cons.2 (.inr ⟨e + 1, rfl, ?_⟩)⟩
          exact endEnds_cons.2 (.inr ⟨e, rfl, hends⟩)
      · rintro ⟨e, rfl, hends⟩
        rcases endEnds_cons.1 hends with ⟨hend, -⟩ | ⟨e, rfl, hrest⟩
        · exact absurd hend (not_end_of_labels hlabels)
        rcases endEnds_cons.1 hrest with ⟨hend, -⟩ | ⟨e, rfl, hbehind⟩
        · exact absurd hend hu
        · exact .inr ⟨e, by omega, hbehind⟩
  | case5 idx t u us hlabels hend ih =>
      rw [labelMarks, if_neg hlabels, if_pos hend, List.mem_cons, ih h.tail]
      constructor
      · rintro (heq | ⟨e, rfl, hends⟩)
        · cases heq
          exact ⟨1, rfl, endEnds_cons.2 (.inl ⟨hend, rfl⟩)⟩
        · exact ⟨e + 1, by omega, endEnds_cons.2 (.inr ⟨e, rfl, hends⟩)⟩
      · rintro ⟨e, rfl, hends⟩
        rcases endEnds_cons.1 hends with ⟨-, rfl⟩ | ⟨e, rfl, hrest⟩
        · exact .inl rfl
        · exact .inr ⟨e, by omega, hrest⟩
  | case6 idx t u us hlabels hend ih =>
      rw [labelMarks, if_neg hlabels, if_neg hend, ih h.tail]
      constructor
      · rintro ⟨e, rfl, hends⟩
        exact ⟨e + 1, by omega, endEnds_cons.2 (.inr ⟨e, rfl, hends⟩)⟩
      · rintro ⟨e, rfl, hends⟩
        rcases endEnds_cons.1 hends with ⟨hend', -⟩ | ⟨e, rfl, hrest⟩
        · exact absurd hend' hend
        · exact ⟨e, by omega, hrest⟩

theorem labelMarks_bounds {m : ℕ × Option Bytes} (hm : m ∈ labelMarks idx tokens) :
    idx < m.1 ∧ m.1 ≤ idx + tokens.length := by
  induction idx, tokens using labelMarks.induct with
  | case1 idx => exact absurd hm List.not_mem_nil
  | case2 idx t hend =>
      rw [labelMarks, if_pos hend, List.mem_singleton] at hm
      subst hm
      exact ⟨by omega, by simp⟩
  | case3 idx t hend =>
      rw [labelMarks, if_neg hend] at hm
      exact absurd hm List.not_mem_nil
  | case4 idx t u us hlabels ih =>
      rw [labelMarks, if_pos hlabels, List.mem_cons] at hm
      simp only [List.length_cons]
      rcases hm with rfl | hm
      · exact ⟨by omega, by omega⟩
      · have := ih hm
        omega
  | case5 idx t u us hlabels hend ih =>
      rw [labelMarks, if_neg hlabels, if_pos hend, List.mem_cons] at hm
      simp only [List.length_cons]
      rcases hm with rfl | hm
      · exact ⟨by omega, by omega⟩
      · have := ih hm
        simp only [List.length_cons] at this
        omega
  | case6 idx t u us hlabels hend ih =>
      rw [labelMarks, if_neg hlabels, if_neg hend] at hm
      have := ih hm
      simp only [List.length_cons] at this ⊢
      omega

theorem labelMarks_marked (idx : ℕ) (tokens : List Token) :
    Intervals.Marked (labelMarks idx tokens) (idx + tokens.length) := by
  refine ⟨?_, fun m hm => (labelMarks_bounds hm).2⟩
  induction idx, tokens using labelMarks.induct with
  | case1 idx => exact List.Pairwise.nil
  | case2 idx t hend =>
      rw [labelMarks, if_pos hend]
      exact List.pairwise_singleton _ _
  | case3 idx t hend =>
      rw [labelMarks, if_neg hend]
      exact List.Pairwise.nil
  | case4 idx t u us hlabels ih =>
      rw [labelMarks, if_pos hlabels]
      exact List.pairwise_cons.2 ⟨fun m hm => (labelMarks_bounds hm).1, ih⟩
  | case5 idx t u us hlabels hend ih =>
      rw [labelMarks, if_neg hlabels, if_pos hend]
      exact List.pairwise_cons.2 ⟨fun m hm => (labelMarks_bounds hm).1, ih⟩
  | case6 idx t u us hlabels hend ih =>
      rw [labelMarks, if_neg hlabels, if_neg hend]
      exact ih

/-! ## The table -/

theorem put_intervals (s : LabelScan) (ms : List (ℕ × Option Bytes)) (n : ℕ) :
    s.put (Intervals.nextMark ms n) ++ Intervals.intervals ms n =
      s.table ++ Intervals.intervals (s.marks ++ ms) n := by
  rcases s with ⟨name, _ | lower, table⟩
  · rfl
  · exact List.append_assoc _ _ _

/-- The table is made of the intervals between the marks. -/
theorem buildLoop_eq (h : LabelsNamed tokens) (s : LabelScan) :
    (buildLoop idx tokens s).1 = 0 ∧ (buildLoop idx tokens s).2.table =
      s.table ++
        Intervals.intervals (s.marks ++ labelMarks idx tokens) (idx + tokens.length) := by
  induction idx, tokens using labelMarks.induct generalizing s with
  | case1 idx =>
      refine ⟨rfl, ?_⟩
      rw [← put_intervals]
      exact (List.append_nil _).symm
  | case2 idx t hend =>
      have hnot : ¬ t.Labels := fun hlabels => by
        obtain ⟨u, us, hnil, -⟩ := h.head hlabels
        cases hnil
      rw [buildLoop.eq_def]
      simp only [if_neg hnot, if_pos hend]
      refine ⟨rfl, ?_⟩
      rw [labelMarks, if_pos hend, ← put_intervals]
      exact (List.append_nil _).symm
  | case3 idx t hend =>
      have hnot : ¬ t.Labels := fun hlabels => by
        obtain ⟨u, us, hnil, -⟩ := h.head hlabels
        cases hnil
      have hnull : t.type ≠ .nullToken := h.stored t List.mem_cons_self
      rw [buildLoop.eq_def]
      simp only [if_neg hnot, if_neg hend, if_neg hnull]
      refine ⟨rfl, ?_⟩
      rw [labelMarks, if_neg hend, ← put_intervals]
      exact (List.append_nil _).symm
  | case4 idx t u us hlabels ih =>
      obtain ⟨_, _, hcons, hidentifier⟩ := h.head hlabels
      cases hcons
      obtain ⟨hstatus, htable⟩ := ih h.tail.tail (s.openLabel u.text (idx + 2))
      rw [buildLoop.eq_def]
      simp only [if_pos hlabels, if_pos hidentifier]
      refine ⟨hstatus, ?_⟩
      have hlength : idx + (t :: u :: us).length = idx + 2 + us.length := by
        simp only [List.length_cons]
        omega
      rw [htable, labelMarks, if_pos hlabels, ← put_intervals s, hlength]
      rfl
  | case5 idx t u us hlabels hend ih =>
      obtain ⟨hstatus, htable⟩ := ih h.tail (s.close (idx + 1))
      rw [buildLoop.eq_def]
      simp only [if_neg hlabels, if_pos hend]
      refine ⟨hstatus, ?_⟩
      have hlength : idx + (t :: u :: us).length = idx + 1 + (u :: us).length := by
        simp only [List.length_cons]
        omega
      rw [htable, labelMarks, if_neg hlabels, if_pos hend, ← put_intervals s, hlength]
      rfl
  | case6 idx t u us hlabels hend ih =>
      obtain ⟨hstatus, htable⟩ := ih h.tail s
      have hnull : t.type ≠ .nullToken := h.stored t List.mem_cons_self
      rw [buildLoop.eq_def]
      simp only [if_neg hlabels, if_neg hend, if_neg hnull]
      refine ⟨hstatus, ?_⟩
      have hlength : idx + (t :: u :: us).length = idx + 1 + (u :: us).length := by
        simp only [List.length_cons]
        omega
      rw [htable, labelMarks, if_neg hlabels, if_neg hend, hlength]

theorem labelBuildIdxTable_eq (h : LabelsNamed tokens) :
    labelBuildIdxTable tokens =
      (0, Intervals.intervals (labelMarks 0 tokens) tokens.length) := by
  obtain ⟨hstatus, htable⟩ := @buildLoop_eq tokens 0 h ⟨[], none, []⟩
  rw [Nat.zero_add] at htable
  rw [labelBuildIdxTable, hstatus, htable]
  rfl

/-! ## Which label is found -/

theorem LabelEnds.name_eq {name' : Bytes} (h : LabelEnds tokens idx name)
    (h' : LabelEnds tokens idx name') : name = name' := by
  obtain ⟨j, t, u, rfl, -, -, hu, -, rfl⟩ := h
  obtain ⟨j', t', u', heq, -, -, hu', -, rfl⟩ := h'
  have hj : j = j' := Nat.add_right_cancel heq
  rw [hj, hu'] at hu
  cases hu
  rfl

/-- A mark spans to an index when its label is open there and no other one begins in between. -/
theorem spans_iff {e : ℕ} (h : LabelsNamed tokens) :
    Intervals.Spans (labelMarks 0 tokens) idx e name ↔
      LabelOpen tokens idx e name ∧
        ∀ e' name', LabelEnds tokens e' name' → e < e' → idx ≤ e' := by
  have hlabel : ∀ e name, (e, some name) ∈ labelMarks 0 tokens ↔ LabelEnds tokens e name := by
    intro e name
    rw [some_mem_labelMarks h]
    simp only [Nat.zero_add, exists_eq_left']
  have hend : ∀ e, (e, none) ∈ labelMarks 0 tokens ↔ EndEnds tokens e := by
    intro e
    rw [none_mem_labelMarks h]
    simp only [Nat.zero_add, exists_eq_left']
  constructor
  · rintro ⟨hopens, hle, hnext⟩
    refine ⟨⟨(hlabel e name).1 hopens, hle, fun k hk hlt => ?_⟩, fun e' name' he' hlt => ?_⟩
    · exact hnext _ ((hend k).2 hk) hlt
    · exact hnext _ ((hlabel e' name').2 he') hlt
  · rintro ⟨⟨hends, hle, hopen⟩, hlabels⟩
    refine ⟨(hlabel e name).2 hends, hle, ?_⟩
    rintro ⟨k, _ | name'⟩ hm hlt
    · exact hopen k ((hend k).1 hm) hlt
    · exact hlabels k name' ((hlabel k name').1 hm) hlt

/-- Of the labels that are open, there is a last one. -/
theorem exists_last {e : ℕ} (h : LabelOpen tokens idx e name) :
    ∃ e' name', LabelOpen tokens idx e' name' ∧
      ∀ e'' name'', LabelOpen tokens idx e'' name'' → e'' ≤ e' := by
  classical
  let P : ℕ → Prop := fun e => ∃ name, LabelOpen tokens idx e name
  obtain ⟨name', hopen⟩ : P (Nat.findGreatest P idx) := Nat.findGreatest_spec h.le ⟨name, h⟩
  exact ⟨_, name', hopen, fun e'' name'' h'' => Nat.le_findGreatest h''.le ⟨name'', h''⟩⟩

/-- A label that begins later is open as long as an earlier one. -/
theorem LabelOpen.later {e e' : ℕ} {name' : Bytes} (h : LabelOpen tokens idx e name)
    (h' : LabelEnds tokens e' name') (hlt : e < e') (hle : e' ≤ idx) :
    LabelOpen tokens idx e' name' :=
  ⟨h', hle, fun k hk hlt' => h.open_ k hk (hlt.trans hlt')⟩

theorem last_spans {e : ℕ} (h : LabelsNamed tokens) (hopen : LabelOpen tokens idx e name)
    (hlast : ∀ e' name', LabelOpen tokens idx e' name' → e' ≤ e) :
    Intervals.Spans (labelMarks 0 tokens) idx e name := by
  refine (spans_iff h).2 ⟨hopen, fun e' name' he' hlt => ?_⟩
  by_contra hbefore
  have hle := hlast e' name' (hopen.later he' hlt (by omega))
  omega

/-- Every interval that covers an index has the right name, unless two labels share the index. -/
theorem spans_right_iff (h : LabelsNamed tokens) :
    (∀ e name, Intervals.Spans (labelMarks 0 tokens) idx e name → LabelRight tokens idx name) ↔
      ¬ LabelShared tokens idx := by
  constructor
  · rintro hall ⟨name, e, name', hends, hopen, hlt, hnext, hne⟩
    have hlater := hopen.later hends hlt le_rfl
    rcases hall e name' ((spans_iff h).2 ⟨hopen, hnext⟩) with ⟨e', hopen', hlast⟩ | ⟨-, hnone⟩
    · have he' : e' = idx := le_antisymm hopen'.le (hlast idx name hlater)
      rw [he'] at hopen'
      exact hne (hends.name_eq hopen'.ends)
    · exact hnone e name' hopen
  · intro hshared e name hspans
    obtain ⟨hopen, hnext⟩ := (spans_iff h).1 hspans
    obtain ⟨e', name', hopen', hlast⟩ := exists_last hopen
    rcases (hlast e name hopen).lt_or_eq with hlt | rfl
    · have he' : e' = idx := le_antisymm hopen'.le (hnext e' name' hopen'.ends hlt)
      subst he'
      have heq : name' = name := by
        by_contra hne
        exact hshared ⟨name', e, name, hopen'.ends, hopen, hlt, hnext, hne⟩
      rw [← heq]
      exact .inl ⟨e', hopen', hlast⟩
    · exact .inl ⟨e, hopen, hlast⟩

/-- The table is in order, and whatever search is used, the label that is found is the right one,
just when the name of no label ends at the index while another one is in force. -/
theorem label_get_right_iff (h : LabelsNamed tokens) (hidx : idx ≤ tokens.length) :
    (labelBuildIdxTable tokens).1 = 0 ∧ Intervals.Chain (labelBuildIdxTable tokens).2 ∧
      ((∀ search, LabelRight tokens idx (labelGet search (labelBuildIdxTable tokens).2 idx)) ↔
        ¬ LabelShared tokens idx) := by
  have hmarked : Intervals.Marked (labelMarks 0 tokens) tokens.length := by
    have h := labelMarks_marked 0 tokens
    rwa [Nat.zero_add] at h
  have hchain := Intervals.chain_intervals hmarked
  have hcovers : ∀ e name, (∃ s ∈ Intervals.intervals (labelMarks 0 tokens) tokens.length,
      s.Covers idx ∧ s.lower = e ∧ s.name = name) ↔
        Intervals.Spans (labelMarks 0 tokens) idx e name := fun e name =>
    Intervals.covers_iff_spans hmarked hidx
  rw [labelBuildIdxTable_eq h]
  refine ⟨rfl, hchain, ?_⟩
  have hsearch := @SortedArray.forall_find_iff _ idxCmp ⟨[], idx, 0⟩ _ (hchain.order idx)
    fun found => LabelRight tokens idx (found.elim [] Intervals.Interval.name)
  refine hsearch.trans ?_
  rw [← spans_right_iff h]
  constructor
  · rintro ⟨hall, -⟩ e name hspans
    obtain ⟨s, hs, hcover, -, rfl⟩ := (hcovers e name).2 hspans
    exact hall s hs (Intervals.compareKey_eq.2 hcover)
  · intro hall
    refine ⟨fun s hs heq => ?_, fun hnone => .inr ⟨rfl, fun e name hopen => ?_⟩⟩
    · have hcover := Intervals.compareKey_eq.1 heq
      exact hall s.lower s.name ((hcovers _ _).1 ⟨s, hs, hcover, rfl, rfl⟩)
    · obtain ⟨e', name', hopen', hlast⟩ := exists_last hopen
      obtain ⟨s, hs, hcover, -⟩ := (hcovers e' name').2 (last_spans h hopen' hlast)
      exact hnone s hs (Intervals.compareKey_eq.2 hcover)

end

def labelLines : List Bytes → List Token
  | [] => []
  | name :: names =>
      mark .label rfl :: word name :: mark .endOfLine endOfLine_hasText :: labelLines names

theorem labelLines_named (names : List Bytes) : LabelsNamed (labelLines names) := by
  have hnot : ∀ {t : Token}, (t.type = .identifier ∨ t.type = .endOfLine) → ¬ t.Labels := by
    rintro t (ht | ht) <;> rw [Token.Labels, ht] <;> decide
  induction names with
  | nil =>
      refine ⟨fun j t ht => ?_, fun t ht => absurd ht List.not_mem_nil⟩
      cases ht
  | cons name names ih =>
      refine ⟨?_, ?_⟩
      · rintro (_ | _ | _ | j) t ht hlabels
        · exact ⟨word name, rfl, rfl⟩
        · cases ht
          exact absurd hlabels (hnot (.inl rfl))
        · cases ht
          exact absurd hlabels (hnot (.inr rfl))
        · exact ih.named j t ht hlabels
      · intro t ht
        simp only [labelLines, List.mem_cons] at ht
        rcases ht with rfl | rfl | rfl | ht
        · exact fun heq => by cases heq
        · exact fun heq => by cases heq
        · exact fun heq => by cases heq
        · exact ih.stored t ht

theorem label_get_right_two :
    (labelBuildIdxTable (labelLines [cstr "a", cstr "b"])).1 = 0 ∧
      ∀ search, LabelRight (labelLines [cstr "a", cstr "b"]) 4
        (labelGet search (labelBuildIdxTable (labelLines [cstr "a", cstr "b"])).2 4) := by
  obtain ⟨hstatus, -, hright⟩ := @label_get_right_iff _ 4
    (labelLines_named [cstr "a", cstr "b"]) (by decide)
  refine ⟨hstatus, hright.2 ?_⟩
  rintro ⟨name, e, name', ⟨j, t, u, hj, ht, hlabels, -⟩, -⟩
  obtain rfl : j = 2 := by omega
  cases ht
  exact absurd hlabels (by decide)

/-- Bisection finds the second of three labels where the third one begins. -/
theorem label_get_not_always_right :
    ∃ found, labelGet SortedArray.bisection
        (labelBuildIdxTable (labelLines [cstr "a", cstr "b", cstr "c"])).2 8 = found ∧
      ¬ LabelRight (labelLines [cstr "a", cstr "b", cstr "c"]) 8 found := by
  refine ⟨cstr "b", rfl, ?_⟩
  have hc : LabelOpen (labelLines [cstr "a", cstr "b", cstr "c"]) 8 8 (cstr "c") := by
    refine ⟨⟨6, _, _, rfl, rfl, .inr rfl, rfl, rfl, rfl⟩, le_rfl, fun k hk hlt => ?_⟩
    exact hlt.le
  rintro (⟨e, hopen, hlast⟩ | ⟨hname, -⟩)
  · have he : e = 8 := le_antisymm hopen.le (hlast 8 _ hc)
    rw [he] at hopen
    have hnames : cstr "b" = cstr "c" := hopen.ends.name_eq hc.ends
    exact absurd hnames (by decide)
  · exact absurd hname (by decide)

end ScOpen
