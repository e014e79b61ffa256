import ScOpen.MakeLogFits
import ScOpen.SecsEncodeRight

/-!
# The fixed arrays under deep lists

The decoder and the log keep their counts, names and padded lines in arrays of fixed size and
compare no index with them. A run is followed up to its end or up to the first read past the end
of the message; whatever else stops it is a step out of an array.
-/

namespace ScOpen

/-- As far as the run comes, no index leaves its array and no text is too long or without its
terminator. -/
def InBounds {α : Type} (r : Except Fault α) : Prop :=
  ∀ fault, r = .error fault → fault = .readPastEnd

theorem inBounds_ok {α : Type} (a : α) : InBounds (.ok a : Except Fault α) :=
  fun _ h => by cases h

theorem inBounds_error_iff {α : Type} (fault : Fault) :
    InBounds (.error fault : Except Fault α) ↔ fault = .readPastEnd := by
  constructor
  · exact fun h => h fault rfl
  · intro h f hf
    cases hf
    exact h

theorem inBounds_bind {α β : Type} {x : Except Fault α} {f : α → Except Fault β} :
    InBounds (x >>= f) ↔ InBounds x ∧ ∀ a, x = .ok a → InBounds (f a) := by
  cases x with
  | error fault =>
      simp only [bind, Except.bind, inBounds_error_iff, reduceCtorEq, false_implies,
        implies_true, and_true]
  | ok a =>
      simp only [bind, Except.bind, inBounds_ok, true_and, Except.ok.injEq, forall_eq']

theorem Cursor.read_inBounds (c : Cursor) (n : ℕ) : InBounds (c.read n) := by
  unfold Cursor.read
  split
  · exact inBounds_ok _
  · exact (inBounds_error_iff _).2 rfl

theorem readItemHeader_inBounds (c : Cursor) : InBounds (readItemHeader c) := by
  refine inBounds_bind.2 ⟨c.read_inBounds 1, fun p _ => ?_⟩
  exact inBounds_bind.2 ⟨p.2.read_inBounds _, fun _ _ => inBounds_ok _⟩

theorem nameBuffer_inBounds_iff (text : Bytes) :
    InBounds (nameBuffer text) ↔ text.length < 256 := by
  unfold nameBuffer
  split
  · rename_i h
    exact iff_of_true (inBounds_ok _) h
  · rename_i h
    rw [inBounds_error_iff]
    exact iff_of_false (by simp) h

theorem padText_inBounds_iff (pad : Pad) : InBounds (padText pad) ↔ Terminated pad := by
  induction pad with
  | nil => simp [padText, Terminated, inBounds_error_iff]
  | cons b pad ih =>
      cases b with
      | none => simp [padText, Terminated, inBounds_error_iff]
      | some b =>
          by_cases hb : b = 0
          · simp [padText, Terminated, hb, inBounds_ok]
          · simp only [padText, Terminated, hb, if_false, false_or, inBounds_bind, ih]
            exact and_iff_left fun _ _ => inBounds_ok _

/-! ## The elements of an item -/

section

variable (k : ElementKind) (baseName : Bytes)

/-- An element's name is built as long as the elements before it are there. -/
theorem decodeElements_inBounds_iff (array : Bool) (n i : ℕ) (st : DecodeState) :
    InBounds (decodeElements k baseName array n i st) ↔
      ∀ j < n, k.width * j ≤ st.cursor.rest.length →
        (elementName baseName array (i + j)).length < 256 := by
  induction n generalizing i st with
  | zero => exact iff_of_true (inBounds_ok _) fun j hj => absurd hj (Nat.not_lt_zero j)
  | succ n ih =>
      simp only [decodeElements, inBounds_bind, nameBuffer_inBounds_iff, Cursor.read_inBounds,
        true_and, ih, Prod.forall]
      constructor
      · rintro ⟨hname, hrest⟩ j hj hroom
        cases j with
        | zero => exact hname
        | succ j =>
            rw [Nat.mul_succ] at hroom
            have hread : st.cursor.read k.width = .ok (st.cursor.rest.take k.width,
                ⟨st.cursor.rest.drop k.width, sub32 st.cursor.length k.width⟩) :=
              if_pos (by omega)
            have h := hrest _ (nameBuffer_ok hname) _ _ hread j (by omega)
              (by rw [List.length_drop]; omega)
            rwa [Nat.add_right_comm, Nat.add_assoc] at h
      · refine fun h => ⟨h 0 (by omega) (by omega), fun name _ p cursor hread j hj hroom => ?_⟩
        have hshrinks := Cursor.read_shrinks hread
        have h := h (j + 1) (by omega) (by rw [Nat.mul_succ]; omega)
        rwa [Nat.add_right_comm, Nat.add_assoc]

/-- The names of an item's elements fit `name[256]` as far as the `room` after the header holds
elements, and the names beside them when it holds them all. -/
structure ElementNamesInRoom (size room : ℕ) : Prop where
  elements : ∀ i < size / k.width, k.width * i ≤ room →
    (elementName baseName (k.isArray size) i).length < 256
  whole : k.width * (size / k.width) ≤ room → k.wholeVariable → k.isArray size →
    (baseName ++ cstr "[]").length < 256
  count : k.width * (size / k.width) ≤ room → k.isArray size →
    (baseName ++ cstr "[0]").length < 256

variable {k baseName} in
theorem ElementNamesInRoom.fits {size room : ℕ} (h : ElementNamesInRoom k baseName size room)
    (hroom : k.width * (size / k.width) ≤ room) : ElementNamesFit k baseName size where
  elements i hi := h.elements i hi ((Nat.mul_le_mul_left _ hi.le).trans hroom)
  whole := h.whole hroom
  count := h.count hroom

theorem addWholeVariable_inBounds_iff (size : ℕ) (data : Bytes) (st : DecodeState) :
    InBounds (addWholeVariable k baseName size data st) ↔
      (k.wholeVariable → k.isArray size → (baseName ++ cstr "[]").length < 256) := by
  unfold addWholeVariable
  split
  · rename_i h
    rw [inBounds_bind, nameBuffer_inBounds_iff]
    exact ⟨fun hname _ _ => hname.1, fun hname => ⟨hname h.1 h.2, fun _ _ => inBounds_ok _⟩⟩
  · rename_i h
    exact iff_of_true (inBounds_ok _) fun hwhole harray => absurd ⟨hwhole, harray⟩ h

theorem addArrayVariables_inBounds_iff (size : ℕ) (st : DecodeState) :
    InBounds (addArrayVariables k baseName size st) ↔
      (k.isArray size → (baseName ++ cstr "[0]").length < 256) := by
  unfold addArrayVariables
  split
  · rename_i h
    rw [inBounds_bind, nameBuffer_inBounds_iff]
    exact ⟨fun hname _ => hname.1, fun hname => ⟨hname h, fun _ _ => inBounds_ok _⟩⟩
  · rename_i h
    exact iff_of_true (inBounds_ok _) fun harray => absurd harray h

theorem addWholeVariable_of_inBounds {size : ℕ} {data : Bytes} {st : DecodeState}
    (h : InBounds (addWholeVariable k baseName size data st)) :
    ∃ st', addWholeVariable k baseName size data st = .ok st' := by
  have hname := (addWholeVariable_inBounds_iff k baseName size data st).1 h
  unfold addWholeVariable
  split
  · rename_i harray
    simp only [nameBuffer_ok (hname harray.1 harray.2), bind, Except.bind, pure, Except.pure]
    exact ⟨_, rfl⟩
  · exact ⟨_, rfl⟩

theorem decodeElementItem_inBounds_iff (size : ℕ) (st : DecodeState) (rest : Bytes)
    (hlen : rest.length < 2 ^ 32) (hcursor : st.cursor = cursorAt rest) :
    InBounds (decodeElementItem k baseName size st >>= addArrayVariables k baseName size) ↔
      Terminated st.pad ∧ ElementNamesInRoom k baseName size rest.length := by
  have hrest : st.cursor.rest = rest := by rw [hcursor, cursorAt]
  simp only [decodeElementItem, inBounds_bind, bind_ok_iff, padText_inBounds_iff,
    decodeElements_inBounds_iff, hrest, Nat.zero_add]
  constructor
  · rintro ⟨⟨hterm, hitem⟩, harray⟩
    obtain ⟨text, htext⟩ := (padText_iff st.pad).2 hterm
    obtain ⟨hnames, hwhole⟩ := hitem text htext
    have hrun : k.width * (size / k.width) ≤ rest.length → ∃ st', decodeElements k baseName
        (k.isArray size) (size / k.width) 0 { st with
          log := st.log ++ text ++ k.tag
          vars := st.vars ++ if size = 0 ∧ k.emptyVariable then [(baseName, [])] else [] } =
        .ok st' := by
      intro hroom
      have hfit : ∀ j < size / k.width,
          (elementName baseName (k.isArray size) (0 + j)).length < 256 := by
        intro j hj
        rw [Nat.zero_add]
        exact hnames j hj ((Nat.mul_le_mul_left _ hj.le).trans hroom)
      obtain ⟨log, h⟩ := decodeElements_ok k baseName (k.isArray size) (size / k.width) 0
        { st with
          log := st.log ++ text ++ k.tag
          vars := st.vars ++ if size = 0 ∧ k.emptyVariable then [(baseName, [])] else [] }
        rest hlen hcursor hroom hfit
      exact ⟨_, h⟩
    refine ⟨hterm, hnames, fun hroom => ?_, fun hroom => ?_⟩
    · obtain ⟨st₁, h₁⟩ := hrun hroom
      exact (addWholeVariable_inBounds_iff _ _ _ _ _).1 (hwhole st₁ h₁).1
    · obtain ⟨st₁, h₁⟩ := hrun hroom
      obtain ⟨st₂, h₂⟩ := addWholeVariable_of_inBounds _ _ (hwhole st₁ h₁).1
      exact (addArrayVariables_inBounds_iff _ _ _ _).1
        (harray _ ⟨text, htext, st₁, h₁, st₂, h₂, rfl⟩)
  · rintro ⟨hterm, hnames⟩
    have hroom : ∀ {st' st'' : DecodeState} {n : ℕ},
        decodeElements k baseName (k.isArray size) n 0 st' = .ok st'' →
        st'.cursor.rest = rest → k.width * n ≤ rest.length := by
      intro st' st'' n h hst
      rw [← hst]
      exact (decodeElements_inv h).1
    refine ⟨⟨hterm, fun text _ => ⟨hnames.elements, fun st₁ h₁ => ⟨?_, fun _ _ =>
      inBounds_ok _⟩⟩⟩, ?_⟩
    · exact (addWholeVariable_inBounds_iff _ _ _ _ _).2 (hnames.whole (hroom h₁ hrest))
    · rintro st₃ ⟨text, -, st₁, h₁, -⟩
      exact (addArrayVariables_inBounds_iff _ _ _ _).2 (hnames.count (hroom h₁ hrest))

end

/-! ## A turn of the decoder -/

section

variable (fl : FloatText) (varPrefix : Bytes)

structure ItemInBounds (frames : List Frame) (pad : Pad) (h : Header) (room : ℕ) : Prop where
  name : (nextName varPrefix frames).length < 256
  column : padColumn frames < padSize
  line : secsType? h.code ≠ none →
    Terminated (writePad pad (padColumn frames) (nextName varPrefix frames))
  elements : ∀ t, secsType? h.code = some (.elements t) →
    ElementNamesInRoom (t.kind fl) (nextName varPrefix frames) h.size room

/-- The padded line overflows long before the levels run out. -/
theorem nesting_of_column {frames : List Frame} (h : padColumn frames < padSize) :
    frames.length < 100 := by
  simp only [padColumn, padSize] at h
  omega

variable {fl varPrefix} in
theorem ItemInBounds.fits {frames : List Frame} {pad : Pad} {h : Header} {room : ℕ}
    (hin : ItemInBounds fl varPrefix frames pad h room)
    (hroom : ∀ t, secsType? h.code = some t → t.ownBytes h.size ≤ room) :
    HeaderFits fl varPrefix frames pad h where
  name := hin.name
  column := hin.column
  line := hin.line
  nesting _ := nesting_of_column hin.column
  elements t ht := by
    refine (hin.elements t ht).fits ?_
    rw [t.kind_width fl]
    exact hroom _ ht

theorem decodeBranch_inBounds_iff {frames : List Frame} {size : ℕ} {body : Bytes} {t : SecsType}
    (st : DecodeState) (hlen : body.length < 2 ^ 32) (hcursor : st.cursor = cursorAt body)
    (hcolumn : padColumn frames < padSize) (hopen : framesAfter t size frames ≠ []) :
    InBounds (decodeBranch fl (nextName varPrefix frames) (entered frames) size st t) ↔
      Terminated st.pad ∧ ∀ t', t = .elements t' →
        ElementNamesInRoom (t'.kind fl) (nextName varPrefix frames) size body.length := by
  have hclose : ∀ st, InBounds (closeLists (opened t size frames) st) := by
    intro st
    obtain ⟨log, h⟩ := closeLists_opened st hopen hcolumn
    rw [h]
    exact inBounds_ok _
  cases t with
  | list =>
      have hnest : ¬ 100 ≤ (entered frames).length := by
        rw [length_entered]
        exact Nat.not_le.2 (nesting_of_column hcolumn)
      have hopened : (if size = 0 then entered frames else ⟨size, 0⟩ :: entered frames) =
          opened .list size frames := by
        by_cases hzero : size = 0 <;> simp [opened, hzero]
      simp only [decodeBranch, if_neg hnest, hopened, inBounds_bind, padText_inBounds_iff, hclose,
        implies_true, and_true, reduceCtorEq, false_implies]
  | ascii =>
      rw [opened_elements _ _ _ (by decide)] at hclose
      simp only [decodeBranch, inBounds_bind, padText_inBounds_iff, Cursor.read_inBounds, hclose,
        implies_true, and_true, reduceCtorEq, false_implies]
  | elements t =>
      rw [opened_elements _ _ _ (by simp)] at hclose
      simp only [decodeBranch]
      rw [← bind_assoc, inBounds_bind, decodeElementItem_inBounds_iff _ _ _ _ body hlen hcursor]
      simp only [hclose, implies_true, and_true, SecsType.elements.injEq, forall_eq']

theorem decodeTurn_inBounds_iff {st : DecodeState} {rest body : Bytes} {h : Header}
    (hlen : rest.length < 2 ^ 32) (hcursor : st.cursor = cursorAt rest) (hne : st.frames ≠ [])
    (hopen : ∀ t, secsType? h.code = some t → framesAfter t h.size st.frames ≠ [])
    (hh : takeHeader rest = some (h, body)) :
    InBounds (decodeTurn fl varPrefix st) ↔
      ItemInBounds fl varPrefix st.frames st.pad h body.length := by
  have hlen' : body.length < 2 ^ 32 := (takeHeader_length hh).trans hlen
  by_cases hname : (nextName varPrefix st.frames).length < 256
  case neg =>
    refine iff_of_false ?_ fun hin => hname hin.name
    obtain ⟨cursor, frames, pad, log, vars⟩ := st
    subst hcursor
    cases frames with
    | nil => exact (hne rfl).elim
    | cons top below =>
        have hbuffer : nameBuffer (nextName varPrefix (top :: below)) = .error .bufferOverflow :=
          if_neg hname
        simp only [decodeTurn, readItemHeader_ok hlen hh, bind, Except.bind, nextName_cons,
          hbuffer, inBounds_error_iff, reduceCtorEq, not_false_eq_true]
  by_cases hcolumn : padColumn st.frames < padSize
  case neg =>
    refine iff_of_false ?_ fun hin => hcolumn hin.column
    obtain ⟨cursor, frames, pad, log, vars⟩ := st
    subst hcursor
    cases frames with
    | nil => exact (hne rfl).elim
    | cons top below =>
        simp only at hname hcolumn
        simp only [decodeTurn, readItemHeader_ok hlen hh, bind, Except.bind, nextName_cons,
          nameBuffer_ok hname, if_pos (Nat.le_of_not_lt hcolumn), inBounds_error_iff, reduceCtorEq,
          not_false_eq_true]
  rw [decodeTurn_eq fl varPrefix hlen hcursor hne hh hname hcolumn]
  cases ht : secsType? h.code with
  | none =>
      refine iff_of_true (inBounds_ok _) ⟨hname, hcolumn, fun hsome => (hsome ht).elim, ?_⟩
      intro t htype
      rw [ht] at htype
      cases htype
  | some t =>
      simp only [inBounds_bind]
      rw [decodeBranch_inBounds_iff fl varPrefix _ hlen' rfl hcolumn (hopen t ht)]
      constructor
      · rintro ⟨⟨hterm, hnames⟩, -⟩
        refine ⟨hname, hcolumn, fun _ => hterm, fun t' htype => hnames t' ?_⟩
        rw [ht] at htype
        exact Option.some.inj htype
      · refine fun hin => ⟨⟨hin.line (by simp [ht]), fun t' htype => hin.elements t' ?_⟩,
          fun _ _ => inBounds_ok _⟩
        rw [ht, htype]

/-- The items that are met up to the end of the body, or up to one that is not all there, fit with
the open lists and the padded line as the items before them leave them. -/
def ItemsInBounds (frames : List Frame) (pad : Pad) (rest : Bytes) : Prop :=
  match _h : takeHeader rest with
  | none => True
  | some (h, body) => ItemInBounds fl varPrefix frames pad h body.length ∧
      ∀ t, secsType? h.code = some t → t.ownBytes h.size ≤ body.length →
        ItemsInBounds (framesAfter t h.size frames) (padAfter varPrefix t h.size frames pad)
          (body.drop (t.ownBytes h.size))
termination_by rest.length
decreasing_by
  rw [List.length_drop]
  have := takeHeader_length _h
  omega

theorem itemsInBounds_none {frames : List Frame} {pad : Pad} {rest : Bytes}
    (hh : takeHeader rest = none) : ItemsInBounds fl varPrefix frames pad rest := by
  rw [ItemsInBounds]
  split
  · trivial
  · rename_i heq
    rw [hh] at heq
    cases heq

theorem itemsInBounds_some {frames : List Frame} {pad : Pad} {rest body : Bytes} {h : Header}
    (hh : takeHeader rest = some (h, body)) :
    ItemsInBounds fl varPrefix frames pad rest ↔
      ItemInBounds fl varPrefix frames pad h body.length ∧
        ∀ t, secsType? h.code = some t → t.ownBytes h.size ≤ body.length →
          ItemsInBounds fl varPrefix (framesAfter t h.size frames)
            (padAfter varPrefix t h.size frames pad) (body.drop (t.ownBytes h.size)) := by
  conv_lhs => rw [ItemsInBounds]
  split
  · rename_i heq
    rw [hh] at heq
    cases heq
  · rename_i h' body' heq
    rw [hh] at heq
    cases heq
    rfl

theorem decodeTurn_cut {st : DecodeState} {rest : Bytes} (hcursor : st.cursor = cursorAt rest)
    (hh : takeHeader rest = none) : InBounds (decodeTurn fl varPrefix st) := by
  simp only [decodeTurn, inBounds_bind, readItemHeader_inBounds, true_and]
  rintro ⟨code, size, cursor⟩ hheader
  rw [hcursor] at hheader
  obtain ⟨body, hbody, -⟩ := readItemHeader_inv hheader
  rw [hh] at hbody
  cases hbody

theorem BottomOpen.framesAfter_ne_nil {n : ℕ} {frames : List Frame} (h : BottomOpen n frames)
    (hn : 0 < n) (t : SecsType) (size : ℕ) : ScOpen.framesAfter t size frames ≠ [] :=
  (h.framesAfter hn t size).ne_nil

theorem decodeLoop_inBounds_iff (st : DecodeState) (rest : Bytes)
    (hcursor : st.cursor = cursorAt rest) (hlen : rest.length < 2 ^ 32)
    (hbottom : BottomOpen rest.length st.frames) :
    InBounds (decodeLoop fl varPrefix st) ↔
      ItemsInBounds fl varPrefix st.frames st.pad rest := by
  induction hn : rest.length using Nat.strong_induction_on generalizing st rest with
  | _ n ih =>
  by_cases hnil : rest = []
  · subst hnil
    rw [decodeLoop_eq, hcursor, if_pos (by rfl)]
    exact iff_of_true (inBounds_ok _) (itemsInBounds_none fl varPrefix rfl)
  have hlength : st.cursor.length ≠ 0 := by
    rw [hcursor]
    simpa [cursorAt] using hnil
  rw [decodeLoop_eq, if_neg hlength]
  cases hh : takeHeader rest with
  | none =>
      refine iff_of_true ?_ (itemsInBounds_none fl varPrefix hh)
      have hin := decodeTurn_cut fl varPrefix hcursor hh
      cases hturn : decodeTurn fl varPrefix st with
      | error fault =>
          rw [hturn, inBounds_error_iff] at hin
          exact (inBounds_error_iff _).2 hin
      | ok r =>
          obtain ⟨hd, body, hbody, -⟩ := fits_of_decodeTurn fl varPrefix hcursor hturn
          rw [hh] at hbody
          cases hbody
  | some p =>
      obtain ⟨hd, body⟩ := p
      have hbody : body.length < rest.length := takeHeader_length hh
      have hopen : ∀ t, secsType? hd.code = some t → framesAfter t hd.size st.frames ≠ [] :=
        fun t _ => hbottom.framesAfter_ne_nil (by omega) t hd.size
      have hturns := decodeTurn_inBounds_iff fl varPrefix hlen hcursor hbottom.ne_nil hopen hh
      rw [itemsInBounds_some fl varPrefix hh]
      cases hturn : decodeTurn fl varPrefix st with
      | error fault =>
          rw [hturn, inBounds_error_iff] at hturns
          rw [inBounds_error_iff, hturns]
          refine ⟨fun hin => ⟨hin, fun t ht hown => ?_⟩, fun h => h.1⟩
          have hroom : ∀ t', secsType? hd.code = some t' → t'.ownBytes hd.size ≤ body.length := by
            intro t' ht'
            rw [ht] at ht'
            cases ht'
            exact hown
          obtain ⟨log, hok⟩ := decodeTurn_ok fl varPrefix hlen hcursor hh ht hown (hin.fits hroom)
            (hopen t ht) hbottom.ne_nil
          rw [hturn] at hok
          cases hok
      | ok r =>
          obtain ⟨hd', body', hbody', hfits, hr⟩ := fits_of_decodeTurn fl varPrefix hcursor hturn
          rw [hh] at hbody'
          cases hbody'
          have hin := hturns.1 (hturn ▸ inBounds_ok r)
          cases ht : secsType? hd.code with
          | none =>
              rw [ht] at hr
              cases r with
              | next st' => exact hr.elim
              | unknown st' =>
                  exact iff_of_true (inBounds_ok _) ⟨hin, fun t htype => by cases htype⟩
          | some t =>
              rw [ht] at hr
              cases r with
              | unknown st' => exact hr.elim
              | next st' =>
                  have hown : t.ownBytes hd.size ≤ body.length := hr
                  have hdrop : (body.drop (t.ownBytes hd.size)).length < rest.length := by
                    rw [List.length_drop]
                    omega
                  have hbottom' := hbottom.framesAfter hdrop t hd.size
                  obtain ⟨log, hok⟩ := decodeTurn_ok fl varPrefix hlen hcursor hh ht hown hfits
                    hbottom'.ne_nil hbottom.ne_nil
                  rw [hturn] at hok
                  cases hok
                  have hnext := ih _ (by omega)
                    { cursor := cursorAt (body.drop (t.ownBytes hd.size))
                      frames := framesAfter t hd.size st.frames
                      pad := padAfter varPrefix t hd.size st.frames st.pad
                      log := log
                      vars := st.vars ++
                        itemVars fl t (nextName varPrefix st.frames) hd.size body }
                    _ rfl (by omega) hbottom' rfl
                  simp only [Option.some.injEq, forall_eq', hin, true_and, hown, true_implies]
                  exact hnext

end

/-! ## The log of an encoded message -/

section

variable (fl : FloatText)

theorem logElements_inBounds (k : ElementKind) (n : ℕ) (st : LogState) :
    InBounds (logElements k n st) := by
  induction n generalizing st with
  | zero => exact inBounds_ok _
  | succ n ih =>
      exact inBounds_bind.2 ⟨st.cursor.read_inBounds _, fun p _ => ih _⟩

theorem logBranch_inBounds {frames : List Frame} {size : ℕ} {t : SecsType} (text : Bytes)
    (st : LogState) (hcolumn : padColumn frames < logPadSize)
    (hopen : framesAfter t size frames ≠ []) :
    InBounds (logBranch fl text (entered frames) size st t) := by
  have hclose : ∀ st, InBounds (logClose (opened t size frames) st) := by
    intro st
    obtain ⟨log, h⟩ := logClose_opened st hopen hcolumn
    rw [h]
    exact inBounds_ok _
  cases t with
  | list =>
      have hnest : ¬ 100 ≤ (entered frames).length := by
        rw [length_entered]
        simp only [padColumn, logPadSize] at hcolumn
        omega
      have hopened : (if size = 0 then entered frames else ⟨size, 0⟩ :: entered frames) =
          opened .list size frames := by
        by_cases hzero : size = 0 <;> simp [opened, hzero]
      simp only [logBranch, if_neg hnest, hopened]
      exact hclose _
  | ascii =>
      rw [opened_elements _ _ _ (by decide)] at hclose
      exact inBounds_bind.2 ⟨st.cursor.read_inBounds _, fun p _ => hclose _⟩
  | elements t =>
      rw [opened_elements _ _ _ (by simp)] at hclose
      exact inBounds_bind.2 ⟨logElements_inBounds _ _ _, fun st' _ => hclose _⟩

theorem logLoop_inBounds_iff (st : LogState) (rest : Bytes) (hcursor : st.cursor = cursorAt rest)
    (hlen : rest.length < 2 ^ 32) (hbottom : BottomOpen rest.length st.frames) :
    InBounds (logLoop fl st) ↔ LogFits st.frames (walk rest).1 := by
  induction hn : rest.length using Nat.strong_induction_on generalizing st rest with
  | _ n ih =>
  by_cases hnil : rest = []
  · subst hnil
    rw [logLoop_eq, hcursor, if_pos (by rfl), walk_nil]
    exact iff_of_true (inBounds_ok _) trivial
  have hlength : st.cursor.length ≠ 0 := by
    rw [hcursor]
    simpa [cursorAt] using hnil
  rw [logLoop_eq, if_neg hlength]
  cases hh : takeHeader rest with
  | none =>
      rw [walk_none hnil hh]
      refine iff_of_true ?_ trivial
      have hin : InBounds (logTurn fl st) := by
        simp only [logTurn, inBounds_bind, readItemHeader_inBounds, true_and]
        rintro ⟨code, size, cursor⟩ hheader
        rw [hcursor] at hheader
        obtain ⟨body, hbody, -⟩ := readItemHeader_inv hheader
        rw [hh] at hbody
        cases hbody
      cases hturn : logTurn fl st with
      | error fault =>
          rw [hturn, inBounds_error_iff] at hin
          exact (inBounds_error_iff _).2 hin
      | ok r =>
          obtain ⟨p, hp⟩ := logTurn_whole_header fl hcursor hturn
          rw [hh] at hp
          cases hp
  | some p =>
      obtain ⟨hd, body⟩ := p
      have hbody : body.length < rest.length := takeHeader_length hh
      have hhead : LogFits st.frames (walk rest).1 → padColumn st.frames < logPadSize := by
        rw [walk_some hh]
        split
        · exact fun h => h.1
        · split <;> exact fun h => h.1
      rw [logTurn_eq fl hlen hcursor hbottom.ne_nil hh]
      by_cases hcolumn : padColumn st.frames < logPadSize
      case neg =>
        have hpad : logPad st.frames = .error .bufferOverflow := if_neg hcolumn
        simp only [hpad, bind, Except.bind, inBounds_error_iff, reduceCtorEq]
        exact iff_of_false not_false fun h => hcolumn (hhead h)
      case pos =>
      obtain ⟨text, htext⟩ := logPad_ok hcolumn
      rw [walk_some hh]
      cases ht : secsType? hd.code with
      | none =>
          simp only [htext, bind, Except.bind, pure, Except.pure, LogFits, ht, reduceCtorEq,
            implies_true, and_true]
          exact iff_of_true (inBounds_ok _) hcolumn
      | some t =>
          have hopen : framesAfter t hd.size st.frames ≠ [] :=
            hbottom.framesAfter_ne_nil (by omega) t hd.size
          by_cases hown : t.ownBytes hd.size ≤ body.length
          · have hdrop : (body.drop (t.ownBytes hd.size)).length < rest.length := by
              rw [List.length_drop]
              omega
            have hbottom' := hbottom.framesAfter hdrop t hd.size
            obtain ⟨log, hrun⟩ := logBranch_ok fl text { st with cursor := cursorAt body }
              (by omega) rfl hown hcolumn hbottom'.ne_nil
            simp only [htext, bind, Except.bind, hrun, pure, Except.pure, hown, if_true, LogFits,
              hcolumn, true_and, ht, Option.some.injEq, forall_eq']
            exact ih _ (by omega) _ _ rfl (by omega) hbottom' rfl
          · simp only [hown, if_false, LogFits, hcolumn, implies_true, and_true, iff_true]
            have hin := logBranch_inBounds fl text { st with cursor := cursorAt body } hcolumn hopen
            simp only [htext, bind, Except.bind]
            cases hrun : logBranch fl text (entered st.frames) hd.size
                { st with cursor := cursorAt body } t with
            | error fault =>
                rw [hrun, inBounds_error_iff] at hin
                exact (inBounds_error_iff _).2 hin
            | ok st' => exact absurd (logBranch_inv fl hrun) hown

end

/-! ## Whole messages -/

/-- No index or text of the decoder leaves its array exactly when, at each item that it meets, the
item's name with its positions has fewer than 256 bytes, also with the suffixes of its elements,
the column of its level lies inside `pad[256]` and the padded line is ended there; and none of the
log exactly when the column of each item that it meets lies inside `pad[100]`. -/
theorem in_bounds_iff (fl : FloatText) (varPrefix : Bytes) (body : MessageBody) (log : Bytes) :
    (InBounds (secsDecode fl varPrefix body log) ↔
      ItemsInBounds fl varPrefix [⟨0, 0⟩] (List.replicate padSize none) body.bytes) ∧
    (InBounds (makeLog fl body.bytes log) ↔ LogFits [⟨0, 0⟩] (walk body.bytes).1) := by
  have hbottom := bottomOpen_start body.length_fits
  constructor
  · exact decodeLoop_inBounds_iff fl varPrefix _ body.bytes rfl body.length_fits hbottom
  · exact logLoop_inBounds_iff fl _ body.bytes rfl body.length_fits hbottom

def deepLists : ℕ → Bytes
  | 0 => [0x01, 0x00]
  | n + 1 => 0x01 :: 0x01 :: deepLists n

theorem length_deepLists (n : ℕ) : (deepLists n).length = 2 * n + 2 := by
  induction n with
  | zero => rfl
  | succ n ih =>
      rw [deepLists, List.length_cons, List.length_cons, ih]
      omega

theorem takeHeader_deepLists (n : ℕ) :
    takeHeader (deepLists (n + 1)) = some (⟨SecsType.list.code, 1⟩, deepLists n) := by
  have hbytes : deepLists (n + 1) = headerBytes .list 1 1 ++ deepLists n := rfl
  rw [hbytes, takeHeader_headerBytes (by decide) (by decide)]

theorem padColumn_framesAfter_list (frames : List Frame) :
    padColumn (framesAfter .list 1 frames) = padColumn frames + 3 := by
  have hopened : opened .list 1 frames = ⟨1, 0⟩ :: entered frames := if_pos ⟨rfl, one_ne_zero⟩
  have hclosed : framesAfter .list 1 frames = ⟨1, 0⟩ :: entered frames := by
    rw [framesAfter, hopened]
    rfl
  rw [hclosed, padColumn, List.length_cons, length_entered, padColumn]
  omega

theorem column_of_deepLists {fl : FloatText} {varPrefix : Bytes} {frames : List Frame} {pad : Pad}
    {n : ℕ} (h : ItemsInBounds fl varPrefix frames pad (deepLists n)) :
    padColumn frames + 3 * n < padSize := by
  induction n generalizing frames pad with
  | zero =>
      have hheader : takeHeader (deepLists 0) = some (⟨SecsType.list.code, 0⟩, []) := rfl
      exact ((itemsInBounds_some fl varPrefix hheader).1 h).1.column
  | succ n ih =>
      have hrest := ((itemsInBounds_some fl varPrefix (takeHeader_deepLists n)).1 h).2 .list rfl
        (Nat.zero_le _)
      have hcolumn := ih hrest
      rw [padColumn_framesAfter_list] at hcolumn
      omega

theorem logColumn_of_deepLists {frames : List Frame} {n : ℕ}
    (h : LogFits frames (walk (deepLists n)).1) : padColumn frames + 3 * n < logPadSize := by
  induction n generalizing frames with
  | zero =>
      have hheader : takeHeader (deepLists 0) = some (⟨SecsType.list.code, 0⟩, []) := rfl
      rw [walk_some hheader, secsType?_code] at h
      exact h.1
  | succ n ih =>
      rw [walk_some (takeHeader_deepLists n), secsType?_code] at h
      have hcolumn := ih (h.2 .list rfl)
      rw [padColumn_framesAfter_list] at hcolumn
      omega

/-- An item inside 75 lists overflows the padded line of the decoder, one inside 23 lists that of
the log. -/
theorem not_always_in_bounds :
    ¬ (∀ fl varPrefix (body : MessageBody) log, InBounds (secsDecode fl varPrefix body log)) ∧
      ¬ ∀ fl (body : MessageBody) log, InBounds (makeLog fl body.bytes log) := by
  constructor
  · intro hall
    have hbody : (deepLists 75).length < 2 ^ 32 := by
      rw [length_deepLists]
      decide
    have hin := hall noFloats (cstr "S1F1") ⟨deepLists 75, hbody⟩ []
    have hcolumn : padColumn [⟨0, 0⟩] + 3 * 75 < padSize := column_of_deepLists
      ((decodeLoop_inBounds_iff _ _ _ (deepLists 75) rfl hbody (bottomOpen_start hbody)).1 hin)
    exact absurd hcolumn (by decide)
  · intro hall
    have hbody : (deepLists 23).length < 2 ^ 32 := by
      rw [length_deepLists]
      decide
    have hin := hall noFloats ⟨deepLists 23, hbody⟩ []
    have hcolumn : padColumn [⟨0, 0⟩] + 3 * 23 < logPadSize := logColumn_of_deepLists
      ((logLoop_inBounds_iff _ _ (deepLists 23) rfl hbody (bottomOpen_start hbody)).1 hin)
    exact absurd hcolumn (by decide)

end ScOpen
