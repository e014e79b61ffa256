import ScOpen.SecsDecode

/-!
# The parts of a decoder turn

What the reads, the fixed-size buffers, the loop over the elements and the closing of lists do
when they succeed, and what must hold for them to succeed.
-/

namespace ScOpen

def cursorAt (rest : Bytes) : Cursor := ⟨rest, rest.length⟩

theorem cursorAt_read {rest : Bytes} {n : ℕ} (hlen : rest.length < 2 ^ 32)
    (hn : n ≤ rest.length) :
    (cursorAt rest).read n = .ok (rest.take n, cursorAt (rest.drop n)) := by
  rw [Cursor.read, if_pos (by exact hn), cursorAt, cursorAt, sub32_of_le hn hlen,
    List.length_drop]

theorem nameBuffer_ok {text : Bytes} (h : text.length < 256) : nameBuffer text = .ok text :=
  if_pos h

theorem nameBuffer_inv {text name : Bytes} (h : nameBuffer text = .ok name) :
    text.length < 256 ∧ name = text := by
  unfold nameBuffer at h
  split at h
  · rename_i hlen
    cases h
    exact ⟨hlen, rfl⟩
  · cases h

/-- A terminator comes before anything that was never written. -/
def Terminated : Pad → Prop
  | some b :: pad => b = 0 ∨ Terminated pad
  | _ => False

theorem padText_iff (pad : Pad) : (∃ text, padText pad = .ok text) ↔ Terminated pad := by
  induction pad with
  | nil => simp [padText, Terminated]
  | cons b pad ih =>
      cases b with
      | none => simp [padText, Terminated]
      | some b =>
          by_cases hb : b = 0
          · simp [padText, Terminated, hb]
          · simp only [padText, Terminated, hb, if_false, false_or, ← ih, bind_ok_iff]
            constructor
            · rintro ⟨text, a, ha, -⟩
              exact ⟨a, ha⟩
            · rintro ⟨a, ha⟩
              exact ⟨b :: a, a, ha, rfl⟩

theorem terminated_of_mem {pad : List UInt8} {tail : Pad} :
    Terminated (pad.map some ++ some 0 :: tail) := by
  induction pad with
  | nil => exact .inl rfl
  | cons b pad ih => exact .inr ih

theorem terminated_clearPad {column : ℕ} (h : column < padSize) :
    Terminated (clearPad column) := by
  have hzero : List.replicate (padSize - column) (some (0 : UInt8)) =
      some 0 :: List.replicate (padSize - column - 1) (some 0) := by
    rw [← List.replicate_succ]
    congr 1
    omega
  rw [clearPad, hzero, ← List.map_replicate]
  exact terminated_of_mem

/-- A name no longer than the column leaves the terminator in its place. -/
theorem terminated_writePad {pad : Pad} {column : ℕ} {name : Bytes}
    (h : name.length ≤ column) : Terminated (writePad pad column name) := by
  rw [writePad, List.drop_append_of_le_length (by simpa using h), List.drop_replicate,
    ← List.append_assoc, ← List.map_replicate, ← List.map_append]
  exact terminated_of_mem

/-! ## The elements of an item -/

def elementVars (k : ElementKind) (baseName : Bytes) (array : Bool) :
    ℕ → ℕ → Bytes → List TmpVariable
  | 0, _, _ => []
  | n + 1, i, p =>
      (elementName baseName array i, k.value (p.take k.width)) ::
        elementVars k baseName array n (i + 1) (p.drop k.width)

theorem decodeElements_ok (k : ElementKind) (baseName : Bytes) (array : Bool) (n i : ℕ)
    (st : DecodeState) (rest : Bytes) (hlen : rest.length < 2 ^ 32)
    (hcursor : st.cursor = cursorAt rest) (hdata : k.width * n ≤ rest.length)
    (hnames : ∀ j < n, (elementName baseName array (i + j)).length < 256) :
    ∃ log, decodeElements k baseName array n i st = .ok { st with
      cursor := cursorAt (rest.drop (k.width * n))
      log := log
      vars := st.vars ++ elementVars k baseName array n i rest } := by
  induction n generalizing i st rest with
  | zero =>
      refine ⟨st.log, ?_⟩
      simp only [decodeElements, elementVars, Nat.mul_zero, List.drop_zero, List.append_nil,
        ← hcursor]
  | succ n ih =>
      have hwidth : k.width ≤ rest.length := by
        rw [Nat.mul_succ] at hdata
        omega
      have hrest : k.width * n ≤ (rest.drop k.width).length := by
        rw [Nat.mul_succ] at hdata
        rw [List.length_drop]
        omega
      have hlen' : (rest.drop k.width).length < 2 ^ 32 := by
        rw [List.length_drop]
        omega
      obtain ⟨log, hrun⟩ := ih (i + 1)
        { st with
          cursor := cursorAt (rest.drop k.width)
          log := st.log ++ k.logText (rest.take k.width)
          vars := st.vars ++ [(elementName baseName array i, k.value (rest.take k.width))] }
        (rest.drop k.width) hlen' rfl hrest (fun j hj => by
          rw [Nat.add_right_comm, Nat.add_assoc]
          exact hnames (j + 1) (by omega))
      have hname : nameBuffer (elementName baseName array i) =
          .ok (elementName baseName array i) := nameBuffer_ok (hnames 0 (by omega))
      refine ⟨log, ?_⟩
      rw [decodeElements, hname, hcursor, cursorAt_read hlen hwidth]
      simp only [bind, Except.bind, hrun]
      rw [List.drop_drop, Nat.mul_succ, Nat.add_comm]
      simp only [elementVars, List.append_assoc, List.singleton_append]

theorem decodeElements_inv {k : ElementKind} {baseName : Bytes} {array : Bool} {n i : ℕ}
    {st st' : DecodeState} (h : decodeElements k baseName array n i st = .ok st') :
    k.width * n ≤ st.cursor.rest.length ∧
      ∀ j < n, (elementName baseName array (i + j)).length < 256 := by
  induction n generalizing i st with
  | zero => exact ⟨by simp, fun j hj => by omega⟩
  | succ n ih =>
      simp only [decodeElements, bind_ok_iff, Prod.exists] at h
      obtain ⟨name, hname, p, cursor, hread, hrun⟩ := h
      obtain ⟨hwidth, -, hrest⟩ := Cursor.read_inv hread
      obtain ⟨hdata, hnames⟩ := ih hrun
      simp only [hrest, List.length_drop] at hdata
      refine ⟨by rw [Nat.mul_succ]; omega, fun j hj => ?_⟩
      cases j with
      | zero => exact (nameBuffer_inv hname).1
      | succ j =>
          have := hnames j (by omega)
          rwa [Nat.add_right_comm, Nat.add_assoc] at this

structure ElementNamesFit (k : ElementKind) (baseName : Bytes) (size : ℕ) : Prop where
  elements : ∀ i < size / k.width, (elementName baseName (k.isArray size) i).length < 256
  whole : k.wholeVariable → k.isArray size → (baseName ++ cstr "[]").length < 256
  count : k.isArray size → (baseName ++ cstr "[0]").length < 256

def elementItemVars (k : ElementKind) (baseName : Bytes) (size : ℕ) (data : Bytes) :
    List TmpVariable :=
  (if size = 0 ∧ k.emptyVariable then [(baseName, [])] else []) ++
    elementVars k baseName (k.isArray size) (size / k.width) 0 data ++
    (if k.wholeVariable ∧ k.isArray size then
      [(baseName ++ cstr "[]", (data.take size).flatMap myBtoh)] else []) ++
    (if k.isArray size then
      [(baseName, cstr "ARRAY"), (baseName ++ cstr "[0]", myItoa (size / k.width : ℕ))] else [])

theorem addWholeVariable_ok {k : ElementKind} {baseName : Bytes} {size : ℕ} {data : Bytes}
    {st : DecodeState} (hfits : ElementNamesFit k baseName size) :
    addWholeVariable k baseName size data st = .ok { st with
      vars := st.vars ++ if k.wholeVariable ∧ k.isArray size then
        [(baseName ++ cstr "[]", data.flatMap myBtoh)] else [] } := by
  unfold addWholeVariable
  split
  · rename_i h
    simp only [nameBuffer_ok (hfits.whole h.1 h.2), bind, Except.bind, pure, Except.pure]
  · rw [List.append_nil]

theorem addArrayVariables_ok {k : ElementKind} {baseName : Bytes} {size : ℕ}
    {st : DecodeState} (hfits : ElementNamesFit k baseName size) :
    addArrayVariables k baseName size st = .ok { st with
      vars := st.vars ++ if k.isArray size then
        [(baseName, cstr "ARRAY"), (baseName ++ cstr "[0]", myItoa (size / k.width : ℕ))]
        else [] } := by
  unfold addArrayVariables
  split
  · rename_i h
    simp only [nameBuffer_ok (hfits.count h), bind, Except.bind, pure, Except.pure]
  · rw [List.append_nil]

theorem decodeElementItem_ok (k : ElementKind) (baseName : Bytes) (size : ℕ) (st : DecodeState)
    (rest : Bytes) (hlen : rest.length < 2 ^ 32) (hcursor : st.cursor = cursorAt rest)
    (hdata : k.width * (size / k.width) ≤ rest.length) (hpad : Terminated st.pad)
    (hfits : ElementNamesFit k baseName size) :
    ∃ log, (decodeElementItem k baseName size st >>= addArrayVariables k baseName size) =
      .ok { st with
        cursor := cursorAt (rest.drop (k.width * (size / k.width)))
        log := log
        vars := st.vars ++ elementItemVars k baseName size rest } := by
  obtain ⟨text, htext⟩ := (padText_iff st.pad).2 hpad
  obtain ⟨log, hrun⟩ := decodeElements_ok k baseName (k.isArray size) (size / k.width) 0
    { st with
      log := st.log ++ text ++ k.tag
      vars := st.vars ++ if size = 0 ∧ k.emptyVariable then [(baseName, [])] else [] }
    rest hlen hcursor hdata (by simpa using hfits.elements)
  refine ⟨log ++ cstr ">\n", ?_⟩
  simp only [decodeElementItem, htext, bind, Except.bind]
  rw [hrun]
  simp only [addWholeVariable_ok hfits, pure, Except.pure, addArrayVariables_ok hfits,
    elementItemVars, hcursor, cursorAt, List.append_assoc]

theorem decodeElementItem_inv {k : ElementKind} {baseName : Bytes} {size : ℕ}
    {st st₁ st₂ : DecodeState} (h₁ : decodeElementItem k baseName size st = .ok st₁)
    (h₂ : addArrayVariables k baseName size st₁ = .ok st₂) :
    k.width * (size / k.width) ≤ st.cursor.rest.length ∧ Terminated st.pad ∧
      ElementNamesFit k baseName size := by
  simp only [decodeElementItem, bind_ok_iff] at h₁
  obtain ⟨text, htext, st₃, hrun, st₄, hwhole, -⟩ := h₁
  obtain ⟨hdata, hnames⟩ := decodeElements_inv hrun
  refine ⟨hdata, (padText_iff st.pad).1 ⟨text, htext⟩, by simpa using hnames, ?_, ?_⟩
  · intro hw harray
    rw [addWholeVariable, if_pos ⟨hw, harray⟩, bind_ok_iff] at hwhole
    obtain ⟨name, hname, -⟩ := hwhole
    exact (nameBuffer_inv hname).1
  · intro harray
    rw [addArrayVariables, if_pos harray, bind_ok_iff] at h₂
    obtain ⟨name, hname, -⟩ := h₂
    exact (nameBuffer_inv hname).1

/-! ## Leaving complete lists -/

def closed (frames : List Frame) : List Frame := frames.dropWhile fun f => f.e = 0

theorem closeLists_ok (frames : List Frame) (st : DecodeState) (hopen : closed frames ≠ [])
    (hcolumn : padColumn frames < padSize) :
    ∃ log, closeLists frames st = .ok { st with
      frames := closed frames
      pad := if closed frames = frames then st.pad else clearPad (padColumn (closed frames))
      log := log } := by
  induction frames generalizing st with
  | nil => exact (hopen rfl).elim
  | cons f fs ih =>
      by_cases hzero : f.e = 0
      · have hcl : closed (f :: fs) = closed fs := by simp [closed, hzero]
        have hne : closed (f :: fs) ≠ f :: fs := by
          rw [hcl]
          intro heq
          have hlen := (List.dropWhile_sublist (l := fs) fun f => decide (f.e = 0)).length_le
          rw [closed] at heq
          rw [heq, List.length_cons] at hlen
          omega
        have hcol : padColumn fs < padSize := by
          simp only [padColumn, List.length_cons] at hcolumn ⊢
          omega
        obtain ⟨text, htext⟩ := (padText_iff _).2 (terminated_clearPad hcol)
        obtain ⟨log, hrun⟩ := ih
          { st with pad := clearPad (padColumn fs), log := st.log ++ text ++ cstr ">\n" }
          (hcl ▸ hopen) hcol
        refine ⟨log, ?_⟩
        rw [closeLists, if_pos hzero, if_pos hcol]
        simp only [htext, bind, Except.bind, hrun, if_neg hne]
        rw [hcl]
        split
        · rename_i heq
          rw [heq]
        · rfl
      · have hcl : closed (f :: fs) = f :: fs := by simp [closed, hzero]
        exact ⟨st.log, by rw [closeLists, if_neg hzero, hcl]; simp⟩

theorem closeLists_vars {frames : List Frame} {st st' : DecodeState}
    (h : closeLists frames st = .ok st') : st'.vars = st.vars := by
  induction frames generalizing st with
  | nil => cases h
  | cons f fs ih =>
      rw [closeLists] at h
      split at h
      · split at h
        · obtain ⟨text, -, hrun⟩ := bind_ok_iff.1 h
          have hvars := ih hrun
          exact hvars
        · cases h
      · cases h
        rfl

end ScOpen
