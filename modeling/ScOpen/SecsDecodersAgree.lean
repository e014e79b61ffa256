import ScOpen.SecsDecodeAccepts
import ScOpen.SecsDecodeNoArrays

/-!
# The two decoders agree

Run side by side on the same body, the decoder with arrays and the one without keep the same
cursor, open lists, padded line and log; only their variables differ. The decoder with arrays
writes longer names, so it alone can overflow a name buffer. A name that is longer than the column
of its line leaves the line without an end in both; what is logged then nobody has written.
-/

namespace ScOpen

/-- Outcomes of the decoder with arrays and of the plain one that go together. A name of the
first may be too long where the second has none. -/
def Agree {α β : Type} (R : α → β → Prop) : Except Fault α → Except Fault β → Prop
  | .ok a, .ok b => R a b
  | .ok _, .error _ => False
  | .error fault, y => fault = .bufferOverflow ∨ y = .error fault

theorem Agree.bind {α β α' β' : Type} {R : α → β → Prop} {S : α' → β' → Prop}
    {x : Except Fault α} {y : Except Fault β} {f : α → Except Fault α'}
    {g : β → Except Fault β'} (hxy : Agree R x y) (hfg : ∀ a b, R a b → Agree S (f a) (g b)) :
    Agree S (x >>= f) (y >>= g) := by
  cases x with
  | error fault =>
      rcases hxy with hover | rfl
      · exact .inl hover
      · exact .inr rfl
  | ok a =>
      cases y with
      | error fault => exact hxy.elim
      | ok b => exact hfg a b hxy

theorem agree_self {α : Type} (x : Except Fault α) : Agree Eq x x := by
  cases x with
  | error fault => exact .inr rfl
  | ok a => exact rfl

theorem nameBuffer_error {text : Bytes} {fault : Fault} (h : nameBuffer text = .error fault) :
    fault = .bufferOverflow := by
  unfold nameBuffer at h
  split at h
  · cases h
  · cases h
    rfl

def DecodeState.SameLog (st st' : DecodeState) : Prop :=
  ∃ vars, st' = { st with vars := vars }

/-- The branches of a type print the same text. -/
theorem plainKind_prints (fl : FloatText) (t : ElementType) :
    (t.plainKind fl).tag = (t.kind fl).tag ∧ (t.plainKind fl).width = (t.kind fl).width ∧
      ∀ p, (t.plainKind fl).logText p = (t.kind fl).logText p := by
  cases t
  case boolean =>
    refine ⟨rfl, rfl, fun p => ?_⟩
    by_cases hp : firstByte p = 0
    · simp only [ElementType.plainKind, plainBoolean, ElementType.kind, booleanKind, hp, if_true]
      rfl
    · simp only [ElementType.plainKind, plainBoolean, ElementType.kind, booleanKind, hp, if_false]
      rfl
  all_goals exact ⟨rfl, rfl, fun p => rfl⟩

section

variable {k : ElementKind} {k' : PlainKind}

def SameElements (st : DecodeState) (a : DecodeState) (b : Cursor × Bytes × Bytes) : Prop :=
  a.cursor = b.1 ∧ a.log = b.2.1 ∧ a.frames = st.frames ∧ a.pad = st.pad

theorem decodeElements_agrees (hwidth : k'.width = k.width)
    (hlogText : ∀ p, k'.logText p = k.logText p) (baseName : Bytes) (array : Bool) (n i : ℕ)
    (st : DecodeState) (value : Bytes) :
    Agree (SameElements st) (decodeElements k baseName array n i st)
      (plainElements k' n st.cursor st.log value) := by
  induction n generalizing i st value with
  | zero => exact ⟨rfl, rfl, rfl, rfl⟩
  | succ n ih =>
      rw [decodeElements, plainElements]
      cases hname : nameBuffer (elementName baseName array i) with
      | error fault => exact .inl (nameBuffer_error hname)
      | ok name =>
          rw [hwidth]
          apply Agree.bind (agree_self (st.cursor.read k.width))
          rintro ⟨p, cursor⟩ _ rfl
          have hrest := ih (i + 1)
            { st with
              cursor := cursor
              log := st.log ++ k.logText p
              vars := st.vars ++ [(name, k.value p)] }
            (value ++ k'.value p ++ cstr " ")
          simp only [hlogText]
          exact hrest

theorem addWholeVariable_agrees (k : ElementKind) (baseName : Bytes) (size : ℕ) (data : Bytes)
    {st st' : DecodeState} (h : st.SameLog st') :
    Agree DecodeState.SameLog (addWholeVariable k baseName size data st) (.ok st') := by
  obtain ⟨vars, rfl⟩ := h
  unfold addWholeVariable
  split
  · cases hname : nameBuffer (baseName ++ cstr "[]") with
    | error fault => exact .inl (nameBuffer_error hname)
    | ok name => exact ⟨vars, rfl⟩
  · exact ⟨vars, rfl⟩

theorem addArrayVariables_agrees (k : ElementKind) (baseName : Bytes) (size : ℕ)
    {st st' : DecodeState} (h : st.SameLog st') :
    Agree DecodeState.SameLog (addArrayVariables k baseName size st) (.ok st') := by
  obtain ⟨vars, rfl⟩ := h
  unfold addArrayVariables
  split
  · cases hname : nameBuffer (baseName ++ cstr "[0]") with
    | error fault => exact .inl (nameBuffer_error hname)
    | ok name => exact ⟨vars, rfl⟩
  · exact ⟨vars, rfl⟩

theorem decodeElementItem_agrees (htag : k'.tag = k.tag) (hwidth : k'.width = k.width)
    (hlogText : ∀ p, k'.logText p = k.logText p) (baseName : Bytes) (size : ℕ)
    {st st' : DecodeState} (h : st.SameLog st') :
    Agree DecodeState.SameLog (decodeElementItem k baseName size st)
      (plainElementItem k' baseName size st') := by
  obtain ⟨vars, rfl⟩ := h
  rw [decodeElementItem, plainElementItem, htag, hwidth]
  apply Agree.bind (agree_self (padText st.pad))
  rintro text _ rfl
  apply Agree.bind (decodeElements_agrees hwidth hlogText baseName (k.isArray size)
    (size / k.width) 0 _ [])
  rintro a ⟨cursor, log, value⟩ ⟨hcursor, hlog, hframes, hpad⟩
  have hsame : a.SameLog { a with vars := vars ++ [(baseName, value)] } := ⟨_, rfl⟩
  have hwhole := addWholeVariable_agrees k baseName size (st.cursor.rest.take size) hsame
  have hend : ∀ b b' : DecodeState, b.SameLog b' →
      Agree DecodeState.SameLog (.ok { b with log := b.log ++ cstr ">\n" })
        (.ok { b' with log := b'.log ++ cstr ">\n" }) := by
    rintro b _ ⟨vars', rfl⟩
    exact ⟨vars', rfl⟩
  have hboth := Agree.bind hwhole hend
  simp only at hcursor hlog hframes hpad
  subst hcursor hlog
  rw [← hframes, ← hpad]
  exact hboth

end

theorem closeLists_agrees (frames : List Frame) {st st' : DecodeState} (h : st.SameLog st') :
    Agree DecodeState.SameLog (closeLists frames st) (closeLists frames st') := by
  induction frames generalizing st st' with
  | nil => exact .inr rfl
  | cons f fs ih =>
      obtain ⟨vars, rfl⟩ := h
      rw [closeLists, closeLists]
      split
      · split
        · apply Agree.bind (agree_self (padText (clearPad (padColumn fs))))
          rintro text _ rfl
          apply ih
          exact ⟨vars, rfl⟩
        · exact .inl rfl
      · exact ⟨vars, rfl⟩

theorem decodeBranch_agrees (fl : FloatText) (baseName : Bytes) (frames : List Frame) (size : ℕ)
    {st st' : DecodeState} (h : st.SameLog st') (t : SecsType) :
    Agree DecodeState.SameLog (decodeBranch fl baseName frames size st t)
      (decodeBranchNoArrays fl baseName frames size st' t) := by
  cases t with
  | list =>
      obtain ⟨vars, rfl⟩ := h
      rw [decodeBranch, decodeBranchNoArrays]
      apply Agree.bind (agree_self (padText st.pad))
      rintro text _ rfl
      split
      · exact .inr rfl
      · exact closeLists_agrees _ ⟨_, rfl⟩
  | ascii =>
      obtain ⟨vars, rfl⟩ := h
      rw [decodeBranch, decodeBranchNoArrays]
      apply Agree.bind (agree_self (padText st.pad))
      rintro text _ rfl
      apply Agree.bind (agree_self (st.cursor.read size))
      rintro ⟨p, cursor⟩ _ rfl
      exact closeLists_agrees _ ⟨_, rfl⟩
  | elements t =>
      obtain ⟨htag, hwidth, hlogText⟩ := plainKind_prints fl t
      rw [decodeBranch, decodeBranchNoArrays]
      apply Agree.bind (decodeElementItem_agrees htag hwidth hlogText baseName size h)
      intro a b hab
      have harray := addArrayVariables_agrees (t.kind fl) baseName size hab
      exact Agree.bind harray fun c d hcd => closeLists_agrees frames hcd

def SameTurn : TurnResult → TurnResult → Prop
  | .next st, .next st' => st.SameLog st'
  | .unknown st, .unknown st' => st.SameLog st'
  | _, _ => False

theorem decodeTurn_agrees (fl : FloatText) (varPrefix : Bytes) {st st' : DecodeState}
    (h : st.SameLog st') :
    Agree SameTurn (decodeTurn fl varPrefix st) (decodeTurnNoArrays fl varPrefix st') := by
  obtain ⟨vars, rfl⟩ := h
  obtain ⟨cursor, frames, pad, log, vars'⟩ := st
  rw [decodeTurn, decodeTurnNoArrays]
  apply Agree.bind (agree_self (readItemHeader cursor))
  rintro ⟨code, size, cursor'⟩ _ rfl
  cases frames with
  | nil => exact .inr rfl
  | cons top below =>
      apply Agree.bind (agree_self (nameBuffer _))
      rintro name _ rfl
      split
      · exact .inl rfl
      · dsimp only
        cases secsType? code with
        | none => exact ⟨vars, rfl⟩
        | some t =>
            exact Agree.bind (decodeBranch_agrees fl name _ size ⟨vars, rfl⟩ t) fun a b hab => hab

def SameRun (r r' : ℕ × DecodeState) : Prop := r.1 = r'.1 ∧ r.2.SameLog r'.2

theorem decodeLoop_agrees (fl : FloatText) (varPrefix : Bytes) {st st' : DecodeState}
    (h : st.SameLog st') :
    Agree SameRun (decodeLoop fl varPrefix st) (decodeLoopNoArrays fl varPrefix st') := by
  induction hn : st.cursor.rest.length using Nat.strong_induction_on generalizing st st' with
  | _ n ih =>
  have hturn := decodeTurn_agrees fl varPrefix h
  have hlength : st'.cursor.length = st.cursor.length := by
    obtain ⟨vars, rfl⟩ := h
    rfl
  rw [decodeLoop_eq, decodeLoopNoArrays_eq, hlength]
  split
  · exact ⟨rfl, h⟩
  · cases hrun : decodeTurn fl varPrefix st with
    | error fault =>
        rw [hrun] at hturn
        rcases hturn with hover | hplain
        · exact .inl hover
        · rw [hplain]
          exact .inr rfl
    | ok r =>
        cases hplain : decodeTurnNoArrays fl varPrefix st' with
        | error fault =>
            rw [hrun, hplain] at hturn
            exact hturn.elim
        | ok r' =>
            rw [hrun, hplain] at hturn
            cases r with
            | unknown a =>
                cases r' with
                | unknown b => exact ⟨rfl, hturn⟩
                | next b => exact hturn.elim
            | next a =>
                cases r' with
                | unknown b => exact hturn.elim
                | next b =>
                    have hlt := decodeTurn_shrinks hrun
                    exact ih _ (by omega) hturn rfl

/-! ## The padded lines

A name that is longer than its column is written over the end of the padded line. Where nothing
behind it has been written to, what is logged then is whatever stands in the memory.
-/

def LinesEnd (varPrefix : Bytes) : List Frame → Pad → List Header → Prop
  | _, _, [] => True
  | frames, pad, h :: hs =>
      (secsType? h.code ≠ none →
        Terminated (writePad pad (padColumn frames) (nextName varPrefix frames))) ∧
      ∀ t, secsType? h.code = some t →
        LinesEnd varPrefix (framesAfter t h.size frames) (padAfter varPrefix t h.size frames pad) hs

def Faults {α : Type} (P : Fault → Prop) (x : Except Fault α) : Prop :=
  ∀ fault, x = .error fault → P fault

section

variable {α β : Type} {P : Fault → Prop}

theorem faults_ok (a : α) : Faults P (.ok a) := by
  intro fault h
  cases h

theorem Faults.bind {x : Except Fault α} {f : α → Except Fault β} (hx : Faults P x)
    (hf : ∀ a, x = .ok a → Faults P (f a)) : Faults P (x >>= f) := by
  cases x with
  | error fault =>
      intro fault' h
      cases h
      exact hx fault rfl
  | ok a => exact hf a rfl

theorem nameBuffer_faults (hover : P .bufferOverflow) (text : Bytes) :
    Faults P (nameBuffer text) := by
  intro fault h
  rw [nameBuffer_error h]
  exact hover

theorem read_faults {c : Cursor} {n : ℕ} (hshort : ¬ n ≤ c.rest.length → P .readPastEnd) :
    Faults P (c.read n) := by
  unfold Cursor.read
  split
  · exact faults_ok _
  · rename_i h
    intro fault hfault
    cases hfault
    exact hshort h

theorem padText_faults {pad : Pad} (hline : ¬ Terminated pad → P .unterminated) :
    Faults P (padText pad) := by
  induction pad with
  | nil =>
      intro fault hfault
      cases hfault
      exact hline id
  | cons b pad ih =>
      cases b with
      | none =>
          intro fault hfault
          cases hfault
          exact hline id
      | some b =>
          rw [padText]
          split
          · exact faults_ok _
          · rename_i hb
            refine Faults.bind (ih fun hpad => hline ?_) fun _ _ => faults_ok _
            rw [Terminated, not_or]
            exact ⟨hb, hpad⟩

theorem padText_unterminated {pad : Pad} (h : ¬ Terminated pad) :
    padText pad = .error .unterminated := by
  have hfaults : Faults (· = .unterminated) (padText pad) := padText_faults fun _ => rfl
  cases hrun : padText pad with
  | ok text => exact (h ((padText_iff pad).1 ⟨text, hrun⟩)).elim
  | error fault => rw [hfaults fault hrun]

theorem decodeElements_faults (hover : P .bufferOverflow) (k : ElementKind) (baseName : Bytes)
    (array : Bool) (n i : ℕ) {st : DecodeState}
    (hshort : ¬ k.width * n ≤ st.cursor.rest.length → P .readPastEnd) :
    Faults P (decodeElements k baseName array n i st) := by
  induction n generalizing i st with
  | zero => exact faults_ok _
  | succ n ih =>
      rw [decodeElements]
      refine (nameBuffer_faults hover _).bind fun name _ => ?_
      refine Faults.bind (read_faults fun h => hshort ?_) fun r hread => ?_
      · rw [Nat.mul_succ]
        omega
      · obtain ⟨p, cursor⟩ := r
        refine ih _ fun h => hshort ?_
        have hlength := Cursor.read_shrinks hread
        simp only at h
        rw [Nat.mul_succ]
        omega

theorem closeLists_faults (hover : P .bufferOverflow) {frames : List Frame} (st : DecodeState)
    (hstack : closed frames = [] → P .stackIndex) : Faults P (closeLists frames st) := by
  induction frames generalizing st with
  | nil =>
      intro fault h
      cases h
      exact hstack rfl
  | cons f fs ih =>
      rw [closeLists]
      split
      · rename_i hzero
        split
        · rename_i hcolumn
          refine Faults.bind (padText_faults fun h => (h (terminated_clearPad hcolumn)).elim) ?_
          intro text _
          refine ih _ fun hclosed => hstack ?_
          rw [closed, List.dropWhile_cons_of_pos (by simpa using hzero)]
          exact hclosed
        · intro fault h
          cases h
          exact hover
      · exact faults_ok _

theorem decodeElementItem_faults (hover : P .bufferOverflow) (k : ElementKind) (baseName : Bytes)
    (size : ℕ) {st : DecodeState} (hline : ¬ Terminated st.pad → P .unterminated)
    (hshort : ¬ k.width * (size / k.width) ≤ st.cursor.rest.length → P .readPastEnd) :
    Faults P (decodeElementItem k baseName size st) := by
  rw [decodeElementItem]
  refine (padText_faults hline).bind fun text _ => ?_
  refine Faults.bind (decodeElements_faults hover _ _ _ _ _ ?_) fun st₁ _ => ?_
  · exact hshort
  · refine Faults.bind ?_ fun _ _ => faults_ok _
    unfold addWholeVariable
    split
    · exact (nameBuffer_faults hover _).bind fun _ _ => faults_ok _
    · exact faults_ok _

theorem addArrayVariables_faults (hover : P .bufferOverflow) (k : ElementKind) (baseName : Bytes)
    (size : ℕ) (st : DecodeState) : Faults P (addArrayVariables k baseName size st) := by
  unfold addArrayVariables
  split
  · exact (nameBuffer_faults hover _).bind fun _ _ => faults_ok _
  · exact faults_ok _

end

section

variable {fl : FloatText} {varPrefix : Bytes} {P : Fault → Prop}

theorem decodeBranch_faults (hover : P .bufferOverflow) (baseName : Bytes) {frames : List Frame}
    {size : ℕ} {st : DecodeState} {t : SecsType} (hline : ¬ Terminated st.pad → P .unterminated)
    (hshort : ¬ t.ownBytes size ≤ st.cursor.rest.length → P .readPastEnd)
    (hnest : frames.length < 100) (hopen : closed frames ≠ []) :
    Faults P (decodeBranch fl baseName frames size st t) := by
  cases t with
  | list =>
      rw [decodeBranch]
      refine (padText_faults hline).bind fun text _ => ?_
      rw [if_neg (Nat.not_le.2 hnest)]
      refine closeLists_faults hover _ fun hclosed => ?_
      by_cases hzero : size = 0
      · rw [if_pos hzero] at hclosed
        exact (hopen hclosed).elim
      · rw [if_neg hzero, closed, List.dropWhile_cons_of_neg (by simpa using hzero)] at hclosed
        cases hclosed
  | ascii =>
      rw [decodeBranch]
      refine (padText_faults hline).bind fun text _ => ?_
      exact (read_faults hshort).bind fun _ _ => closeLists_faults hover _ fun h => (hopen h).elim
  | elements t =>
      rw [decodeBranch]
      refine (decodeElementItem_faults hover _ _ _ hline ?_).bind fun st₁ _ => ?_
      · rw [t.kind_width]
        exact hshort
      · exact (addArrayVariables_faults hover _ _ _ _).bind fun _ _ =>
          closeLists_faults hover _ fun h => (hopen h).elim

theorem decodeBranch_unterminated (baseName : Bytes) (frames : List Frame) (size : ℕ)
    {st : DecodeState} (t : SecsType) (h : ¬ Terminated st.pad) :
    decodeBranch fl baseName frames size st t = .error .unterminated := by
  have htext := padText_unterminated h
  cases t with
  | list =>
      rw [decodeBranch, htext]
      rfl
  | ascii =>
      rw [decodeBranch, htext]
      rfl
  | elements t =>
      rw [decodeBranch, decodeElementItem, htext]
      rfl

end

section

variable {fl : FloatText} {varPrefix : Bytes}

theorem decodeTurn_headless {st : DecodeState} {rest : Bytes} (hcursor : st.cursor = cursorAt rest)
    (hh : takeHeader rest = none) : Faults (· = .readPastEnd) (decodeTurn fl varPrefix st) := by
  rw [decodeTurn, hcursor]
  refine Faults.bind ?_ fun r hread => ?_
  · rw [readItemHeader]
    refine Faults.bind (read_faults fun _ => rfl) fun r _ => ?_
    obtain ⟨p, cursor⟩ := r
    refine Faults.bind (read_faults fun _ => rfl) fun r _ => ?_
    obtain ⟨p', cursor'⟩ := r
    exact faults_ok _
  · obtain ⟨code, size, cursor⟩ := r
    obtain ⟨body, hbody, -⟩ := readItemHeader_inv hread
    rw [hh] at hbody
    cases hbody

/-- A turn that writes over no array has a name that fits and a line in the array. -/
theorem nameFits_of_decodeTurn {st : DecodeState} {rest body : Bytes} {h : Header}
    (hlen : rest.length < 2 ^ 32) (hcursor : st.cursor = cursorAt rest) (hne : st.frames ≠ [])
    (hh : takeHeader rest = some (h, body))
    (hover : decodeTurn fl varPrefix st ≠ .error .bufferOverflow) :
    (nextName varPrefix st.frames).length < 256 ∧ padColumn st.frames < padSize := by
  obtain ⟨cursor, frames, pad, log, vars⟩ := st
  subst hcursor
  cases frames with
  | nil => exact (hne rfl).elim
  | cons top below =>
      simp only [decodeTurn, readItemHeader_ok hlen hh, bind, Except.bind, nextName_cons] at hover
      by_cases hname : (nextName varPrefix (top :: below)).length < 256
      · refine ⟨hname, ?_⟩
        simp only [nameBuffer_ok hname] at hover
        by_contra hcolumn
        exact hover (if_pos (Nat.le_of_not_lt hcolumn))
      · simp only [nameBuffer, if_neg hname] at hover
        exact (hover rfl).elim

theorem decodeTurn_unterminated {st : DecodeState} {rest body : Bytes} {h : Header} {t : SecsType}
    (hlen : rest.length < 2 ^ 32) (hcursor : st.cursor = cursorAt rest) (hne : st.frames ≠ [])
    (hh : takeHeader rest = some (h, body)) (ht : secsType? h.code = some t)
    (hfits : (nextName varPrefix st.frames).length < 256 ∧ padColumn st.frames < padSize)
    (hline : ¬ Terminated (writePad st.pad (padColumn st.frames) (nextName varPrefix st.frames))) :
    decodeTurn fl varPrefix st = .error .unterminated := by
  rw [decodeTurn_eq fl varPrefix hlen hcursor hne hh hfits.1 hfits.2, ht]
  dsimp only
  rw [decodeBranch_unterminated _ _ _ _ hline]
  rfl

/-- A turn with a header that writes over no array ends with a fault only where the line of the item
has no end, or else where its data is not there. -/
theorem decodeTurn_faults {st : DecodeState} {rest body : Bytes} {h : Header}
    (hlen : rest.length < 2 ^ 32) (hcursor : st.cursor = cursorAt rest)
    (hbottom : BottomOpen rest.length st.frames) (hh : takeHeader rest = some (h, body))
    {fault : Fault} (hrun : decodeTurn fl varPrefix st = .error fault)
    (hover : fault ≠ .bufferOverflow) :
    ∃ t, secsType? h.code = some t ∧
      (Terminated (writePad st.pad (padColumn st.frames) (nextName varPrefix st.frames)) ∧
          fault = .readPastEnd ∧ ¬ t.ownBytes h.size ≤ body.length ∨
        ¬ Terminated (writePad st.pad (padColumn st.frames) (nextName varPrefix st.frames)) ∧
          fault = .unterminated) := by
  have hfits := nameFits_of_decodeTurn hlen hcursor hbottom.ne_nil hh (by
    rw [hrun]
    exact fun heq => hover (Except.error.inj heq))
  cases ht : secsType? h.code with
  | none =>
      rw [decodeTurn_eq fl varPrefix hlen hcursor hbottom.ne_nil hh hfits.1 hfits.2, ht] at hrun
      cases hrun
  | some t =>
      refine ⟨t, rfl, ?_⟩
      by_cases hterm : Terminated (writePad st.pad (padColumn st.frames)
        (nextName varPrefix st.frames))
      case neg =>
        rw [decodeTurn_unterminated hlen hcursor hbottom.ne_nil hh ht hfits hterm] at hrun
        exact .inr ⟨hterm, (Except.error.inj hrun).symm⟩
      left
      rw [decodeTurn_eq fl varPrefix hlen hcursor hbottom.ne_nil hh hfits.1 hfits.2, ht] at hrun
      dsimp only at hrun
      generalize hst : DecodeState.mk (cursorAt body) (entered st.frames)
        (writePad st.pad (padColumn st.frames) (nextName varPrefix st.frames)) st.log st.vars = st'
        at hrun
      have hbranch : decodeBranch fl (nextName varPrefix st.frames) (entered st.frames) h.size st' t =
          .error fault := by
        cases hb : decodeBranch fl (nextName varPrefix st.frames) (entered st.frames) h.size st' t with
        | error fault' =>
            rw [hb] at hrun
            cases hrun
            rfl
        | ok st' =>
            rw [hb] at hrun
            cases hrun
      have hnest : (entered st.frames).length < 100 := by
        have hcolumn := hfits.2
        rw [padColumn, padSize] at hcolumn
        rw [length_entered]
        omega
      have hbody : body.length < rest.length := takeHeader_length hh
      have hopen : closed (entered st.frames) ≠ [] := by
        have hafter := (hbottom.framesAfter hbody .ascii h.size).ne_nil
        rwa [framesAfter, opened_elements _ _ _ (by decide)] at hafter
      have hfaults : Faults (fun fault => fault = .bufferOverflow ∨
          fault = .readPastEnd ∧ ¬ t.ownBytes h.size ≤ body.length)
          (decodeBranch fl (nextName varPrefix st.frames) (entered st.frames) h.size st' t) := by
        subst hst
        exact decodeBranch_faults (.inl rfl) _ (fun hline => (hline hterm).elim)
          (fun hshort => .inr ⟨rfl, hshort⟩) hnest hopen
      exact ⟨hterm, (hfaults fault hbranch).resolve_left hover⟩

/-- A run that writes over no array reads a line without an end just where one is on the way. -/
theorem decodeLoop_unterminated_iff (st : DecodeState) (rest : Bytes)
    (hcursor : st.cursor = cursorAt rest) (hlen : rest.length < 2 ^ 32)
    (hbottom : BottomOpen rest.length st.frames)
    (hover : decodeLoop fl varPrefix st ≠ .error .bufferOverflow) :
    decodeLoop fl varPrefix st = .error .unterminated ↔
      ¬ LinesEnd varPrefix st.frames st.pad (walk rest).1 := by
  induction hn : rest.length using Nat.strong_induction_on generalizing st rest with
  | _ n ih =>
  by_cases hnil : rest = []
  · subst hnil
    rw [decodeLoop_eq, hcursor, if_pos (by rfl), walk_nil]
    simp [LinesEnd]
  have hlength : st.cursor.length ≠ 0 := by
    rw [hcursor]
    simpa [cursorAt] using hnil
  rw [decodeLoop_eq, if_neg hlength] at hover ⊢
  cases hh : takeHeader rest with
  | none =>
      rw [walk_none hnil hh]
      cases hturn : decodeTurn fl varPrefix st with
      | error fault =>
          rw [decodeTurn_headless hcursor hh fault hturn]
          simp [LinesEnd]
      | ok r =>
          obtain ⟨hd, body, hbody, -⟩ := fits_of_decodeTurn fl varPrefix hcursor hturn
          rw [hh] at hbody
          cases hbody
  | some p =>
      obtain ⟨hd, body⟩ := p
      rw [walk_some hh]
      cases hturn : decodeTurn fl varPrefix st with
      | error fault =>
          rw [hturn] at hover
          obtain ⟨t, ht, hfault⟩ := decodeTurn_faults hlen hcursor hbottom hh hturn
            fun heq => hover (congrArg _ heq)
          rw [ht]
          dsimp only
          rcases hfault with ⟨hterm, rfl, hshort⟩ | ⟨hterm, rfl⟩
          · rw [if_neg hshort]
            simp [LinesEnd, ht, hterm]
          · split
            · simp [LinesEnd, ht, hterm]
            · simp [LinesEnd, ht, hterm]
      | ok r =>
          obtain ⟨hd', body', hbody', hfits, hr⟩ := fits_of_decodeTurn fl varPrefix hcursor hturn
          rw [hh] at hbody'
          cases hbody'
          cases ht : secsType? hd.code with
          | none =>
              rw [ht] at hr
              cases r with
              | next st' => exact hr.elim
              | unknown st' => simp [LinesEnd, ht]
          | some t =>
              rw [ht] at hr
              cases r with
              | unknown st' => exact hr.elim
              | next st' =>
                  have hdrop : (body.drop (t.ownBytes hd.size)).length < rest.length := by
                    have hbody : body.length < rest.length := takeHeader_length hh
                    rw [List.length_drop]
                    omega
                  have hbottom' := hbottom.framesAfter hdrop t hd.size
                  obtain ⟨log, hnext⟩ := decodeTurn_ok fl varPrefix hlen hcursor hh ht hr hfits
                    hbottom'.ne_nil hbottom.ne_nil
                  rw [hnext] at hturn
                  cases hturn
                  rw [hnext] at hover
                  have hline := hfits.line (by simp [ht])
                  have hrest := ih _ (by omega) _ _ rfl (by omega) hbottom' hover rfl
                  have hown : t.ownBytes hd.size ≤ body.length := hr
                  dsimp only
                  rw [if_pos hown, hrest]
                  simp [LinesEnd, ht, hline]

end

/-! ## The two logs -/

/-- The list depth and all the names stay within the fixed arrays. -/
def StaysInArrays (fl : FloatText) (varPrefix : Bytes) (body : MessageBody) (log : Bytes) : Prop :=
  secsDecode fl varPrefix body log ≠ .error .bufferOverflow

def statusAndLog (r : Except Fault (ℕ × DecodeState)) : Except Fault (ℕ × Bytes) :=
  r.map fun r => (r.1, r.2.log)

/-- The two decoders come to the same status and log, or both read past the end or out of the
levels, and the text of each line is what they have written. -/
def DecodersAgree (fl : FloatText) (varPrefix : Bytes) (body : MessageBody) (log : Bytes) : Prop :=
  statusAndLog (secsDecodeNoArrays fl varPrefix body log) =
      statusAndLog (secsDecode fl varPrefix body log) ∧
    statusAndLog (secsDecode fl varPrefix body log) ≠ .error .unterminated

theorem Fits.linesEnd {fl : FloatText} {varPrefix : Bytes} {frames : List Frame} {pad : Pad}
    {hs : List Header} (h : Fits fl varPrefix frames pad hs) : LinesEnd varPrefix frames pad hs := by
  induction hs generalizing frames pad with
  | nil => trivial
  | cons hd hs ih => exact ⟨h.1.line, fun t ht => ih (h.2 t ht)⟩

theorem statusAndLog_agrees (fl : FloatText) (varPrefix : Bytes) (body : MessageBody) (log : Bytes)
    (hstays : StaysInArrays fl varPrefix body log) :
    statusAndLog (secsDecodeNoArrays fl varPrefix body log) =
      statusAndLog (secsDecode fl varPrefix body log) := by
  have hagree : Agree SameRun (secsDecode fl varPrefix body log)
      (secsDecodeNoArrays fl varPrefix body log) := decodeLoop_agrees fl varPrefix ⟨[], rfl⟩
  cases hrun : secsDecode fl varPrefix body log with
  | error fault =>
      rw [hrun] at hagree
      rcases hagree with rfl | hfault
      · exact (hstays hrun).elim
      · rw [hfault]
  | ok r =>
      cases hrun' : secsDecodeNoArrays fl varPrefix body log with
      | error fault =>
          rw [hrun, hrun'] at hagree
          exact hagree.elim
      | ok r' =>
          rw [hrun, hrun'] at hagree
          obtain ⟨hstatus, vars, hsame⟩ := hagree
          simp only [statusAndLog, Except.map, hstatus, hsame]

theorem statusAndLog_error {r : Except Fault (ℕ × DecodeState)} {fault : Fault} :
    statusAndLog r = .error fault ↔ r = .error fault := by
  cases r with
  | error fault' => simp [statusAndLog, Except.map]
  | ok out => simp [statusAndLog, Except.map]

theorem decodersAgree_iff {fl : FloatText} {varPrefix : Bytes} {body : MessageBody} {log : Bytes}
    (hstays : StaysInArrays fl varPrefix body log) :
    DecodersAgree fl varPrefix body log ↔
      LinesEnd varPrefix [⟨0, 0⟩] (List.replicate padSize none) (walk body.bytes).1 := by
  have hrun : secsDecode fl varPrefix body log = .error .unterminated ↔
      ¬ LinesEnd varPrefix [⟨0, 0⟩] (List.replicate padSize none) (walk body.bytes).1 :=
    decodeLoop_unterminated_iff _ body.bytes rfl body.length_fits
      (bottomOpen_start body.length_fits) hstays
  rw [DecodersAgree, ne_eq, statusAndLog_error, hrun, not_not]
  exact and_iff_right (statusAndLog_agrees fl varPrefix body log hstays)

/-- The decoder with arrays and the plain one agree on the status and on the log, exactly when the
padded line of every item on the way has an end. -/
theorem secs_decoders_agree_iff (fl : FloatText) (varPrefix : Bytes) (body : MessageBody)
    (log : Bytes) (hstays : StaysInArrays fl varPrefix body log) :
    DecodersAgree fl varPrefix body log ↔
      LinesEnd varPrefix [⟨0, 0⟩] (List.replicate padSize none) (walk body.bytes).1 :=
  decodersAgree_iff hstays

theorem nextName_s1f1 : nextName (cstr "S1F1") [⟨0, 0⟩] = cstr "S1F1.1" := by
  have hone : myItoa 1 = cstr "1" := @myItoa_digit 1 (by omega)
  simp only [nextName, itemName, entered, Nat.zero_add, List.reverse_singleton,
    List.flatMap_cons, List.flatMap_nil, List.append_nil, Nat.cast_one, hone]
  rfl

/-- The first item of a body fits the fixed arrays when its elements do. -/
theorem headerFits_s1f1 (fl : FloatText) (pad : Pad) {h : Header}
    (helements : ∀ t, secsType? h.code = some (.elements t) →
      ElementNamesFit (t.kind fl) (cstr "S1F1.1") h.size) :
    HeaderFits fl (cstr "S1F1") [⟨0, 0⟩] pad h := by
  constructor
  case name =>
    rw [nextName_s1f1]
    simp [cstr]
  case column => simp [padColumn, padSize]
  case line =>
    intro _
    apply terminated_writePad
    rw [nextName_s1f1]
    simp [cstr, padColumn]
  case nesting =>
    intro _
    simp
  case elements =>
    rw [nextName_s1f1]
    exact helements

def unsignedPair : MessageBody := ⟨[0xA5, 2, 5, 6], by decide⟩

theorem walk_unsignedPair : walk unsignedPair.bytes = ([⟨0xA4, 2⟩], .finished) := by
  have hheader : takeHeader [0xA5, 2, 5, 6] = some (⟨0xA4, 2⟩, [5, 6]) := rfl
  rw [unsignedPair, walk_some hheader]
  simp [secsType?, SecsType.ownBytes, ElementType.width, walk_nil]

theorem unsignedPair_fits :
    FitsBuffers ⟨fun _ => [], fun _ => []⟩ (cstr "S1F1") unsignedPair := by
  have hone : myItoa 1 = cstr "1" := @myItoa_digit 1 (by omega)
  have htwo : myItoa 2 = cstr "2" := @myItoa_digit 2 (by omega)
  have hnames : ElementNamesFit unsigned1Kind (cstr "S1F1.1") 2 := by
    constructor
    case elements =>
      intro i hi
      have htwice : i = 0 ∨ i = 1 := by
        have hcount : 2 / unsigned1Kind.width = 2 := rfl
        omega
      rcases htwice with rfl | rfl
      · simp [elementName, myItoaFmt1, hone, unsigned1Kind, numberKind, cstr]
      · simp [elementName, myItoaFmt1, htwo, unsigned1Kind, numberKind, cstr]
    case whole =>
      intro h
      cases h
    case count =>
      intro h
      simp [cstr]
  rw [FitsBuffers, walk_unsignedPair]
  refine ⟨headerFits_s1f1 _ _ ?_, fun _ _ => trivial⟩
  intro t ht
  cases ht
  exact hnames

theorem unsignedPair_stays :
    StaysInArrays ⟨fun _ => [], fun _ => []⟩ (cstr "S1F1") unsignedPair [] := by
  have hstatus : (walk unsignedPair.bytes).2.status = some 0 := by
    rw [walk_unsignedPair]
    rfl
  obtain ⟨out, hout⟩ := (secsDecode_status_iff _ _ unsignedPair [] 0).2
    ⟨unsignedPair_fits, hstatus⟩
  intro hover
  rw [hover] at hout
  cases hout

theorem secs_decoders_agree_unsignedPair :
    DecodersAgree ⟨fun _ => [], fun _ => []⟩ (cstr "S1F1") unsignedPair [] :=
  (secs_decoders_agree_iff _ _ _ _ unsignedPair_stays).2 unsignedPair_fits.linesEnd

/-- A name that is longer than its column leaves the padded line of the first item without an end. -/
theorem writePad_unended {column : ℕ} {name : Bytes} (hzero : 0 ∉ name)
    (hcolumn : column < name.length) (hsize : name.length < padSize) :
    ¬ Terminated (writePad (List.replicate padSize none) column name) := by
  have hrest : (List.replicate column (some (chr ' ')) ++
      some 0 :: (List.replicate padSize none).drop (column + 1)).drop name.length =
      List.replicate (padSize - name.length) none := by
    rw [List.drop_append, List.length_replicate, List.drop_replicate, List.drop_replicate,
      Nat.sub_eq_zero_of_le hcolumn.le, List.replicate_zero, List.nil_append]
    obtain ⟨k, hk⟩ : ∃ k, name.length - column = k + 1 := ⟨name.length - column - 1, by omega⟩
    rw [hk, List.drop_succ_cons, List.drop_replicate]
    congr 1
    omega
  have hunwritten : ∀ n, ¬ Terminated (List.replicate n none) := by
    intro n
    cases n with
    | zero => exact id
    | succ n => exact id
  rw [writePad, hrest]
  clear hrest
  generalize padSize - name.length = n
  clear hcolumn hsize
  induction name with
  | nil => exact hunwritten n
  | cons b name ih =>
      rw [List.mem_cons, not_or] at hzero
      rw [List.map_cons, List.cons_append, Terminated, not_or]
      exact ⟨Ne.symm hzero.1, ih hzero.2⟩

/-- With 32 characters in front, the name of an empty text is longer than its column. -/
theorem secs_decoders_not_always_agree :
    ¬ ∀ (fl : FloatText) (varPrefix : Bytes) (body : MessageBody) (log : Bytes),
      StaysInArrays fl varPrefix body log → DecodersAgree fl varPrefix body log := by
  intro hall
  let fl : FloatText := ⟨fun _ => [], fun _ => []⟩
  let varPrefix : Bytes := List.replicate 32 (chr 'x')
  have hheader : takeHeader [0x41, 0] = some (⟨0x40, 0⟩, []) := rfl
  have hname : nextName varPrefix [⟨0, 0⟩] = varPrefix ++ cstr ".1" := by
    have hone : myItoa 1 = cstr "1" := @myItoa_digit 1 (by omega)
    simp only [nextName, itemName, entered, Nat.zero_add, List.reverse_singleton,
      List.flatMap_cons, List.flatMap_nil, List.append_nil, Nat.cast_one, hone]
    rfl
  have hline : ¬ Terminated (writePad (List.replicate padSize none) (padColumn [⟨0, 0⟩])
      (nextName varPrefix [⟨0, 0⟩])) := by
    rw [hname]
    exact writePad_unended (by decide) (by decide) (by decide)
  have hfirst : (nextName varPrefix [⟨0, 0⟩]).length < 256 ∧ padColumn [⟨0, 0⟩] < padSize := by
    rw [hname]
    decide
  have hlen : ([0x41, 0] : Bytes).length < 2 ^ 32 := by decide
  have hturn : decodeTurn fl varPrefix
      ⟨cursorAt [0x41, 0], [⟨0, 0⟩], List.replicate padSize none, [], []⟩ =
        .error .unterminated :=
    decodeTurn_unterminated (t := .ascii) hlen rfl (List.cons_ne_nil _ _) hheader rfl hfirst hline
  have hrun : secsDecode fl varPrefix ⟨[0x41, 0], by decide⟩ [] = .error .unterminated := by
    have hloop := decodeLoop_eq fl varPrefix
      ⟨cursorAt [0x41, 0], [⟨0, 0⟩], List.replicate padSize none, [], []⟩
    rw [hturn, if_neg (by decide)] at hloop
    exact hloop
  have hstays : StaysInArrays fl varPrefix ⟨[0x41, 0], by decide⟩ [] := by
    rw [StaysInArrays, hrun]
    simp
  have hlog := (hall _ _ _ _ hstays).2
  rw [hrun] at hlog
  exact hlog rfl

end ScOpen
