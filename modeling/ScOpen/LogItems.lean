import ScOpen.MakeLogFits
import ScOpen.IntegerValues

/-!
# The items that a log shows

Both logs of a message print it item by item: a margin, the tag of the type, the count of a list
where the log has it, the values, and the end of the line with the ends of the lists that are
complete. `Prints` is that shape of a text; what it shows are the tags and the values.
-/

namespace ScOpen

structure WalkItem where
  type : SecsType
  size : ℕ
  data : Bytes

/-- The items that a walk meets before it ends. -/
def walkItems (bs : Bytes) : List WalkItem :=
  match _h : takeHeader bs with
  | none => []
  | some (h, rest) =>
      match secsType? h.code with
      | none => []
      | some t =>
          ⟨t, h.size, rest.take (t.ownBytes h.size)⟩ ::
            walkItems (rest.drop (t.ownBytes h.size))
termination_by bs.length
decreasing_by
  rw [List.length_drop]
  have := takeHeader_length _h
  omega

theorem walkItems_nil : walkItems [] = [] := by
  rw [walkItems]
  rfl

theorem walkItems_some {bs rest : Bytes} {h : Header} {t : SecsType}
    (hh : takeHeader bs = some (h, rest)) (ht : secsType? h.code = some t) :
    walkItems bs = ⟨t, h.size, rest.take (t.ownBytes h.size)⟩ ::
      walkItems (rest.drop (t.ownBytes h.size)) := by
  rw [walkItems]
  split
  · rename_i heq
    rw [hh] at heq
    cases heq
  · rename_i h' rest' heq
    rw [hh] at heq
    cases heq
    rw [ht]

structure ShownItem where
  tag : Bytes
  values : List Bytes

def elementTexts (k : ElementKind) : ℕ → Bytes → List Bytes
  | 0, _ => []
  | n + 1, p => k.logText (p.take k.width) :: elementTexts k n (p.drop k.width)

def WalkItem.shown (kind : ElementType → ElementKind) (item : WalkItem) : ShownItem :=
  match item.type with
  | .list => ⟨cstr "<L", []⟩
  | .ascii => ⟨cstr "<A", [cstr " \"" ++ item.data ++ cstr "\""]⟩
  | .elements t =>
      ⟨(kind t).tag, elementTexts (kind t) (item.size / (kind t).width) item.data⟩

def IsEnd (text : Bytes) : Prop := ∀ c ∈ text, c = chr ' ' ∨ c = chr '>' ∨ c = chr '\n'

def PrintsItem (margin count : Bytes → Prop) (item : ShownItem) (text : Bytes) : Prop :=
  ∃ m c e, text = m ++ item.tag ++ c ++ item.values.flatten ++ e ∧ margin m ∧
    (if item.tag = cstr "<L" then count c else c = []) ∧ IsEnd e

inductive Prints (margin count : Bytes → Prop) : List ShownItem → Bytes → Prop where
  | nil : Prints margin count [] []
  | cons {item : ShownItem} {items : List ShownItem} {text next : Bytes}
      (hitem : PrintsItem margin count item text) (hnext : Prints margin count items next) :
      Prints margin count (item :: items) (text ++ next)

theorem isEnd_append {e e' : Bytes} (h : IsEnd e) (h' : IsEnd e') : IsEnd (e ++ e') := by
  intro c hc
  rcases List.mem_append.1 hc with hc | hc
  · exact h c hc
  · exact h' c hc

theorem isEnd_blanks (n : ℕ) : IsEnd (List.replicate n (chr ' ')) := by
  intro c hc
  exact .inl (List.eq_of_mem_replicate hc)

theorem isEnd_close : IsEnd (cstr ">\n") := by
  intro c hc
  simp only [cstr, String.reduceToList, List.map_cons, List.map_nil, List.mem_cons,
    List.not_mem_nil, or_false] at hc
  rcases hc with rfl | rfl
  · exact .inr (.inl rfl)
  · exact .inr (.inr rfl)

theorem isEnd_newline : IsEnd (cstr "\n") := by
  intro c hc
  simp only [cstr, String.reduceToList, List.map_cons, List.map_nil, List.mem_cons,
    List.not_mem_nil, or_false] at hc
  exact .inr (.inr hc)

/-! ## The log of the decoder -/

def DecodeMargin (m : Bytes) : Prop :=
  ∃ pad column name, padText (writePad pad column name) = .ok m

def DecodeCount (c : Bytes) : Prop := ∃ n : ℕ, c = cstr " " ++ myItoa n

theorem padText_blanks (n : ℕ) (tail : Pad) :
    padText (List.replicate n (some (chr ' ')) ++ some 0 :: tail) =
      .ok (List.replicate n (chr ' ')) := by
  induction n with
  | zero => rfl
  | succ n ih =>
      have hblank : chr ' ' ≠ 0 := by decide
      rw [List.replicate_succ, List.cons_append, padText, if_neg hblank, ih]
      rfl

theorem padText_clearPad {column : ℕ} (h : column < padSize) :
    padText (clearPad column) = .ok (List.replicate column (chr ' ')) := by
  have hzero : List.replicate (padSize - column) (some (0 : UInt8)) =
      some 0 :: List.replicate (padSize - column - 1) (some 0) := by
    rw [← List.replicate_succ]
    congr 1
    omega
  rw [clearPad, hzero, padText_blanks]

theorem closeLists_log {frames : List Frame} {st st' : DecodeState}
    (h : closeLists frames st = .ok st') : ∃ e, st'.log = st.log ++ e ∧ IsEnd e := by
  induction frames generalizing st with
  | nil => cases h
  | cons f fs ih =>
      rw [closeLists] at h
      split at h
      · split at h
        · rename_i hcolumn
          obtain ⟨text, htext, hrun⟩ := bind_ok_iff.1 h
          rw [padText_clearPad hcolumn] at htext
          cases htext
          obtain ⟨e, hlog, hend⟩ := ih hrun
          refine ⟨List.replicate (padColumn fs) (chr ' ') ++ cstr ">\n" ++ e, ?_,
            isEnd_append (isEnd_append (isEnd_blanks _) isEnd_close) hend⟩
          simp only [hlog, List.append_assoc]
        · cases h
      · cases h
        exact ⟨[], (List.append_nil _).symm, by simp [IsEnd]⟩

theorem decodeElements_log {k : ElementKind} {baseName : Bytes} {array : Bool} {n i : ℕ}
    {st st' : DecodeState} (h : decodeElements k baseName array n i st = .ok st') :
    st'.log = st.log ++ (elementTexts k n st.cursor.rest).flatten := by
  induction n generalizing i st with
  | zero =>
      cases h
      simp only [elementTexts, List.flatten_nil, List.append_nil]
  | succ n ih =>
      simp only [decodeElements, bind_ok_iff, Prod.exists] at h
      obtain ⟨name, -, p, cursor, hread, hrun⟩ := h
      obtain ⟨-, rfl, hrest⟩ := Cursor.read_inv hread
      rw [ih hrun]
      simp only [elementTexts, List.flatten_cons, hrest, List.append_assoc]

theorem addWholeVariable_log {k : ElementKind} {baseName : Bytes} {size : ℕ} {data : Bytes}
    {st st' : DecodeState} (h : addWholeVariable k baseName size data st = .ok st') :
    st'.log = st.log := by
  unfold addWholeVariable at h
  split at h
  · obtain ⟨name, -, hret⟩ := bind_ok_iff.1 h
    cases hret
    rfl
  · cases h
    rfl

theorem addArrayVariables_log {k : ElementKind} {baseName : Bytes} {size : ℕ}
    {st st' : DecodeState} (h : addArrayVariables k baseName size st = .ok st') :
    st'.log = st.log := by
  unfold addArrayVariables at h
  split at h
  · obtain ⟨name, -, hret⟩ := bind_ok_iff.1 h
    cases hret
    rfl
  · cases h
    rfl

/-- The texts of elements do not depend on what follows them. -/
theorem elementTexts_take (k : ElementKind) (n : ℕ) (data : Bytes) {m : ℕ}
    (hm : k.width * n ≤ m) : elementTexts k n (data.take m) = elementTexts k n data := by
  induction n generalizing data m with
  | zero => rfl
  | succ n ih =>
      rw [Nat.mul_succ] at hm
      have hwidth : k.width ≤ m := by omega
      simp only [elementTexts, List.take_take, Nat.min_eq_left hwidth, List.drop_take]
      rw [ih _ (by omega)]

/-- No item with elements has the tag of a list. -/
theorem ElementType.kind_tag_ne (fl : FloatText) (t : ElementType) :
    (t.kind fl).tag ≠ cstr "<L" := by
  cases t <;> simp [ElementType.kind, binaryKind, booleanKind, unsigned1Kind, unsigned2Kind,
    unsigned4Kind, unsigned8Kind, signed1Kind, signed2Kind, signed4Kind, signed8Kind, float4Kind,
    float8Kind, numberKind, cstr, chr]

theorem WalkItem.shown_elements (kind : ElementType → ElementKind) {t : ElementType}
    (hwidth : (kind t).width = t.width) (size : ℕ) (data : Bytes) :
    (⟨.elements t, size, data.take ((SecsType.elements t).ownBytes size)⟩ : WalkItem).shown kind =
      ⟨(kind t).tag, elementTexts (kind t) (size / (kind t).width) data⟩ := by
  simp only [WalkItem.shown, SecsType.ownBytes, ← hwidth, elementTexts_take _ _ _ le_rfl]

theorem decodeBranch_log (fl : FloatText) {baseName : Bytes} {frames : List Frame} {size : ℕ}
    {st st' : DecodeState} {t : SecsType} {pad : Pad} {column : ℕ} {name : Bytes}
    (h : decodeBranch fl baseName frames size st t = .ok st')
    (hpad : st.pad = writePad pad column name) :
    ∃ text, st'.log = st.log ++ text ∧ PrintsItem DecodeMargin DecodeCount
      ((⟨t, size, st.cursor.rest.take (t.ownBytes size)⟩ : WalkItem).shown (·.kind fl)) text := by
  have hmargin : ∀ text, padText st.pad = .ok text → DecodeMargin text := by
    intro text htext
    rw [hpad] at htext
    exact ⟨pad, column, name, htext⟩
  cases t with
  | list =>
      simp only [decodeBranch, bind_ok_iff] at h
      obtain ⟨text, htext, h⟩ := h
      split at h
      · cases h
      · obtain ⟨e, hlog, hend⟩ := closeLists_log h
        refine ⟨_, ?_, text, cstr " " ++ myItoa size,
          (if size = 0 then cstr ">\n" else cstr "\n") ++ e, rfl, hmargin text htext, ?_, ?_⟩
        · simp only [hlog, WalkItem.shown, List.flatten_nil, List.append_nil, List.append_assoc]
        · simp only [WalkItem.shown, if_true]
          exact ⟨size, rfl⟩
        · apply isEnd_append _ hend
          split
          · exact isEnd_close
          · exact isEnd_newline
  | ascii =>
      simp only [decodeBranch, bind_ok_iff, Prod.exists] at h
      obtain ⟨text, htext, p, cursor, hread, h⟩ := h
      obtain ⟨-, rfl, -⟩ := Cursor.read_inv hread
      obtain ⟨e, hlog, hend⟩ := closeLists_log h
      refine ⟨_, ?_, text, [], cstr ">\n" ++ e, rfl, hmargin text htext, ?_,
        isEnd_append isEnd_close hend⟩
      · have hquote : cstr "<A \"" = cstr "<A" ++ cstr " \"" := rfl
        have hclose : cstr "\">\n" = cstr "\"" ++ cstr ">\n" := rfl
        simp only [hlog, WalkItem.shown, SecsType.ownBytes, hquote, hclose, List.flatten_cons,
          List.flatten_nil, List.append_nil, List.append_assoc]
      · rw [if_neg (by simp [WalkItem.shown, cstr, chr])]
  | elements t =>
      simp only [decodeBranch, decodeElementItem, bind_ok_iff] at h
      obtain ⟨st₃, ⟨text, htext, st₁, hrun, st₂, hwhole, hret⟩, st₄, harray, hclose⟩ := h
      cases hret
      obtain ⟨e, hlog, hend⟩ := closeLists_log hclose
      have harray := addArrayVariables_log harray
      have hwhole := addWholeVariable_log hwhole
      have helements := decodeElements_log hrun
      simp only at harray hwhole helements
      rw [WalkItem.shown_elements (·.kind fl) (t.kind_width fl)]
      refine ⟨_, ?_, text, [], cstr ">\n" ++ e, rfl, hmargin text htext, ?_,
        isEnd_append isEnd_close hend⟩
      · simp only [hlog, harray, hwhole, helements, List.append_nil, List.append_assoc]
      · rw [if_neg (t.kind_tag_ne fl)]

/-! ## The log of the encoder -/

def SentMargin (m : Bytes) : Prop := ∃ n, m = List.replicate n (chr ' ')

def SentCount (c : Bytes) : Prop := c = []

theorem logPad_text {frames : List Frame} {text : Bytes} (h : logPad frames = .ok text) :
    text = List.replicate (padColumn frames) (chr ' ') := by
  unfold logPad at h
  split at h
  · cases h
    rfl
  · cases h

theorem logClose_log {frames : List Frame} {st st' : LogState}
    (h : logClose frames st = .ok st') : ∃ e, st'.log = st.log ++ e ∧ IsEnd e := by
  induction frames generalizing st with
  | nil => cases h
  | cons f fs ih =>
      rw [logClose] at h
      split at h
      · obtain ⟨text, htext, hrun⟩ := bind_ok_iff.1 h
        obtain rfl := logPad_text htext
        obtain ⟨e, hlog, hend⟩ := ih hrun
        refine ⟨List.replicate (padColumn fs) (chr ' ') ++ cstr ">\n" ++ e, ?_,
          isEnd_append (isEnd_append (isEnd_blanks _) isEnd_close) hend⟩
        simp only [hlog, List.append_assoc]
      · cases h
        exact ⟨[], (List.append_nil _).symm, by simp [IsEnd]⟩

theorem logElements_log {k : ElementKind} {n : ℕ} {st st' : LogState}
    (h : logElements k n st = .ok st') :
    st'.log = st.log ++ (elementTexts k n st.cursor.rest).flatten := by
  induction n generalizing st with
  | zero =>
      cases h
      simp only [elementTexts, List.flatten_nil, List.append_nil]
  | succ n ih =>
      simp only [logElements, bind_ok_iff, Prod.exists] at h
      obtain ⟨p, cursor, hread, hrun⟩ := h
      obtain ⟨-, rfl, hrest⟩ := Cursor.read_inv hread
      rw [ih hrun]
      simp only [elementTexts, List.flatten_cons, hrest, List.append_assoc]

/-- The two logs print the same tag for a type. -/
theorem ElementType.logKind_tag (fl : FloatText) (t : ElementType) :
    (t.logKind fl).tag = (t.kind fl).tag := by
  cases t <;> simp only [ElementType.logKind, ElementType.kind, signed1Kind, numberKind]

theorem logBranch_log (fl : FloatText) {text : Bytes} {frames : List Frame} {size : ℕ}
    {st st' : LogState} {t : SecsType} (h : logBranch fl text frames size st t = .ok st')
    (hmargin : SentMargin text) :
    ∃ line, st'.log = st.log ++ line ∧ PrintsItem SentMargin SentCount
      ((⟨t, size, st.cursor.rest.take (t.ownBytes size)⟩ : WalkItem).shown (·.logKind fl)) line := by
  cases t with
  | list =>
      simp only [logBranch] at h
      split at h
      · cases h
      · obtain ⟨e, hlog, hend⟩ := logClose_log h
        refine ⟨_, ?_, text, [], (if size = 0 then cstr ">\n" else cstr "\n") ++ e, rfl, hmargin,
          ?_, ?_⟩
        · simp only [hlog, WalkItem.shown, List.flatten_nil, List.append_nil, List.append_assoc]
        · simp only [WalkItem.shown, if_true, SentCount]
        · apply isEnd_append _ hend
          split
          · exact isEnd_close
          · exact isEnd_newline
  | ascii =>
      simp only [logBranch, bind_ok_iff, Prod.exists] at h
      obtain ⟨p, cursor, hread, h⟩ := h
      obtain ⟨-, rfl, -⟩ := Cursor.read_inv hread
      obtain ⟨e, hlog, hend⟩ := logClose_log h
      refine ⟨_, ?_, text, [], cstr ">\n" ++ e, rfl, hmargin, ?_, isEnd_append isEnd_close hend⟩
      · have hquote : cstr "<A \"" = cstr "<A" ++ cstr " \"" := rfl
        have hclose : cstr "\">\n" = cstr "\"" ++ cstr ">\n" := rfl
        simp only [hlog, WalkItem.shown, SecsType.ownBytes, hquote, hclose, List.flatten_cons,
          List.flatten_nil, List.append_nil, List.append_assoc]
      · rw [if_neg (by simp [WalkItem.shown, cstr, chr])]
  | elements t =>
      simp only [logBranch, bind_ok_iff] at h
      obtain ⟨st₁, hrun, hclose⟩ := h
      obtain ⟨e, hlog, hend⟩ := logClose_log hclose
      have helements := logElements_log hrun
      simp only at helements
      rw [WalkItem.shown_elements (·.logKind fl) (t.logKind_width fl)]
      refine ⟨_, ?_, text, [], cstr ">\n" ++ e, rfl, hmargin, ?_, isEnd_append isEnd_close hend⟩
      · simp only [hlog, helements, List.append_nil, List.append_assoc]
      · rw [t.logKind_tag, if_neg (t.kind_tag_ne fl)]

end ScOpen
