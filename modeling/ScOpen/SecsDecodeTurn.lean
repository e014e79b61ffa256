import ScOpen.SecsDecodeElements

/-!
# One turn of the decoder

A turn succeeds exactly when the item header and the data are there and the names, the padded
line and the nesting fit the fixed arrays (`HeaderFits`). `decodeTurn_ok` says all that a
successful turn does, and `fits_of_decodeTurn` that nothing else makes it succeed.
-/

namespace ScOpen

def entered : List Frame → List Frame
  | [] => []
  | top :: below => ⟨sub32 top.e 1, top.ie + 1⟩ :: below

def opened (t : SecsType) (size : ℕ) (frames : List Frame) : List Frame :=
  if t = .list ∧ size ≠ 0 then ⟨size, 0⟩ :: entered frames else entered frames

def framesAfter (t : SecsType) (size : ℕ) (frames : List Frame) : List Frame :=
  closed (opened t size frames)

section

variable (fl : FloatText) (varPrefix : Bytes)

def nextName (frames : List Frame) : Bytes := itemName varPrefix (entered frames)

def padAfter (t : SecsType) (size : ℕ) (frames : List Frame) (pad : Pad) : Pad :=
  if framesAfter t size frames = opened t size frames then
    writePad pad (padColumn frames) (nextName varPrefix frames)
  else clearPad (padColumn (framesAfter t size frames))

structure HeaderFits (frames : List Frame) (pad : Pad) (h : Header) : Prop where
  name : (nextName varPrefix frames).length < 256
  column : padColumn frames < padSize
  line : secsType? h.code ≠ none →
    Terminated (writePad pad (padColumn frames) (nextName varPrefix frames))
  nesting : secsType? h.code = some .list → frames.length < 100
  elements : ∀ t, secsType? h.code = some (.elements t) →
    ElementNamesFit (t.kind fl) (nextName varPrefix frames) h.size

def itemVars (t : SecsType) (name : Bytes) (size : ℕ) (data : Bytes) : List TmpVariable :=
  match t with
  | .list => [(name, myItoa size)]
  | .ascii => [(name, data.take size)]
  | .elements t => elementItemVars (t.kind fl) name size data

theorem takeHeader_inv {rest body : Bytes} {h : Header} (hh : takeHeader rest = some (h, body)) :
    ∃ b bs, rest = b :: bs ∧ lengthByteCount (b.toNat &&& 0x03) ≤ bs.length ∧
      h = ⟨b.toNat &&& 0xFC, beValue (bs.take (lengthByteCount (b.toNat &&& 0x03)))⟩ ∧
      body = bs.drop (lengthByteCount (b.toNat &&& 0x03)) := by
  cases rest with
  | nil => cases hh
  | cons b bs =>
      simp only [takeHeader] at hh
      split at hh
      · rename_i hle
        cases hh
        exact ⟨b, bs, rfl, hle, rfl, rfl⟩
      · cases hh

theorem readItemHeader_ok {rest body : Bytes} {h : Header} (hlen : rest.length < 2 ^ 32)
    (hh : takeHeader rest = some (h, body)) :
    readItemHeader (cursorAt rest) = .ok (h.code, h.size, cursorAt body) := by
  obtain ⟨b, bs, rfl, hcount, rfl, rfl⟩ := takeHeader_inv hh
  have hlen' : bs.length < 2 ^ 32 := by
    rw [List.length_cons] at hlen
    omega
  have hread := cursorAt_read (n := 1) hlen (by simp)
  have hread' := cursorAt_read hlen' hcount
  simp only [readItemHeader, hread, bind, Except.bind, List.take_succ_cons, List.take_zero,
    firstByte, List.headD_cons, List.drop_succ_cons, List.drop_zero, hread', pure, Except.pure]

theorem readItemHeader_inv {rest : Bytes} {code size : ℕ} {cursor : Cursor}
    (h : readItemHeader (cursorAt rest) = .ok (code, size, cursor)) :
    ∃ body, takeHeader rest = some (⟨code, size⟩, body) ∧ cursor.rest = body := by
  simp only [readItemHeader, bind_ok_iff, Prod.exists] at h
  obtain ⟨p, c, hread, p', c', hread', hret⟩ := h
  obtain ⟨hpos, rfl, hrest⟩ := Cursor.read_inv hread
  obtain ⟨hcount, rfl, hrest'⟩ := Cursor.read_inv hread'
  cases rest with
  | nil => simp [cursorAt] at hpos
  | cons b bs =>
      simp only [cursorAt, List.drop_succ_cons, List.drop_zero] at hrest
      simp only [cursorAt, List.take_succ_cons, List.take_zero, firstByte, List.headD_cons,
        hrest] at hcount hret hrest'
      cases hret
      exact ⟨_, by rw [takeHeader, if_pos hcount], hrest'⟩

theorem opened_elements (t : SecsType) (size : ℕ) (frames : List Frame) (ht : t ≠ .list) :
    opened t size frames = entered frames := by
  rw [opened, if_neg fun h => ht h.1]

theorem length_entered (frames : List Frame) : (entered frames).length = frames.length := by
  cases frames with
  | nil => rfl
  | cons top below => simp only [entered, List.length_cons]

theorem padColumn_entered (frames : List Frame) :
    padColumn (entered frames) = padColumn frames := by
  simp only [padColumn, length_entered]

theorem closeLists_opened {t : SecsType} {size : ℕ} {frames : List Frame} (st : DecodeState)
    (hopen : framesAfter t size frames ≠ []) (hcolumn : padColumn frames < padSize) :
    ∃ log, closeLists (opened t size frames) st = .ok { st with
      frames := framesAfter t size frames
      pad := if framesAfter t size frames = opened t size frames then st.pad
        else clearPad (padColumn (framesAfter t size frames))
      log := log } := by
  by_cases hlist : t = .list ∧ size ≠ 0
  · have hopened : opened t size frames = ⟨size, 0⟩ :: entered frames := if_pos hlist
    have hclosed : framesAfter t size frames = opened t size frames := by
      simp [framesAfter, hopened, closed, hlist.2]
    refine ⟨st.log, ?_⟩
    rw [if_pos hclosed, hclosed, hopened, closeLists, if_neg hlist.2]
  · have hopened : opened t size frames = entered frames := if_neg hlist
    refine closeLists_ok _ st hopen ?_
    rwa [hopened, padColumn_entered]

theorem decodeBranch_ok {body : Bytes} {h : Header} {t : SecsType} {frames : List Frame}
    {pad : Pad} (st : DecodeState) (hlen : body.length < 2 ^ 32)
    (hcursor : st.cursor = cursorAt body)
    (hpad : st.pad = writePad pad (padColumn frames) (nextName varPrefix frames))
    (ht : secsType? h.code = some t) (hown : t.ownBytes h.size ≤ body.length)
    (hfits : HeaderFits fl varPrefix frames pad h)
    (hopen : framesAfter t h.size frames ≠ []) :
    ∃ log, decodeBranch fl (nextName varPrefix frames) (entered frames) h.size st t = .ok
      { cursor := cursorAt (body.drop (t.ownBytes h.size))
        frames := framesAfter t h.size frames
        pad := padAfter varPrefix t h.size frames pad
        log := log
        vars := st.vars ++ itemVars fl t (nextName varPrefix frames) h.size body } := by
  have hterm : Terminated st.pad := by
    rw [hpad]
    exact hfits.line (by simp [ht])
  obtain ⟨text, htext⟩ := (padText_iff st.pad).2 hterm
  obtain ⟨cursor, frames', pad', log, vars⟩ := st
  subst hcursor hpad
  have hclose := fun st => closeLists_opened st hopen hfits.column
  cases t with
  | list =>
      have hnest : ¬ 100 ≤ (entered frames).length := by
        have hlt := hfits.nesting ht
        rw [length_entered]
        omega
      have hopened : (if h.size = 0 then entered frames else ⟨h.size, 0⟩ :: entered frames) =
          opened .list h.size frames := by
        by_cases hzero : h.size = 0 <;> simp [opened, hzero]
      obtain ⟨log', hrun⟩ := hclose _
      refine ⟨log', ?_⟩
      simp only [decodeBranch, htext, bind, Except.bind, if_neg hnest, hopened]
      exact hrun
  | ascii =>
      rw [opened_elements _ _ _ (by decide)] at hclose
      obtain ⟨log', hrun⟩ := hclose _
      refine ⟨log', ?_⟩
      have hread := cursorAt_read (n := h.size) hlen hown
      simp only [decodeBranch, htext, bind, Except.bind, hread]
      exact hrun
  | elements t =>
      rw [opened_elements _ _ _ (by simp)] at hclose
      have hwidth := t.kind_width fl
      obtain ⟨log₁, hitem⟩ := decodeElementItem_ok (t.kind fl) (nextName varPrefix frames) h.size
        ⟨cursorAt body, frames', writePad pad (padColumn frames) (nextName varPrefix frames), log,
          vars⟩ body hlen rfl (by rw [hwidth]; exact hown) hterm (hfits.elements t ht)
      obtain ⟨log', hrun⟩ := hclose _
      refine ⟨log', ?_⟩
      simp only [decodeBranch]
      rw [← bind_assoc, hitem]
      simp only [hwidth]
      exact hrun

theorem nextName_cons (top : Frame) (below : List Frame) :
    itemName varPrefix ({ top with ie := top.ie + 1 } :: below) =
      nextName varPrefix (top :: below) := by
  simp only [itemName, nextName, entered, List.reverse_cons, List.flatMap_append,
    List.flatMap_cons, List.flatMap_nil]

theorem decodeTurn_eq {st : DecodeState} {rest body : Bytes} {h : Header}
    (hlen : rest.length < 2 ^ 32) (hcursor : st.cursor = cursorAt rest) (hne : st.frames ≠ [])
    (hh : takeHeader rest = some (h, body)) (hname : (nextName varPrefix st.frames).length < 256)
    (hcolumn : padColumn st.frames < padSize) :
    decodeTurn fl varPrefix st =
      let st' := { st with
        cursor := cursorAt body
        frames := entered st.frames
        pad := writePad st.pad (padColumn st.frames) (nextName varPrefix st.frames) }
      match secsType? h.code with
      | none => .ok (.unknown st')
      | some t => do
          return .next (← decodeBranch fl (nextName varPrefix st.frames) (entered st.frames)
            h.size st' t) := by
  obtain ⟨cursor, frames, pad, log, vars⟩ := st
  subst hcursor
  cases frames with
  | nil => exact (hne rfl).elim
  | cons top below =>
      simp only at hname hcolumn
      simp only [decodeTurn, readItemHeader_ok hlen hh, bind, Except.bind, nextName_cons,
        nameBuffer_ok hname, if_neg (Nat.not_le.2 hcolumn)]
      rfl

theorem decodeTurn_ok {st : DecodeState} {rest body : Bytes} {h : Header} {t : SecsType}
    (hlen : rest.length < 2 ^ 32) (hcursor : st.cursor = cursorAt rest)
    (hh : takeHeader rest = some (h, body)) (ht : secsType? h.code = some t)
    (hown : t.ownBytes h.size ≤ body.length)
    (hfits : HeaderFits fl varPrefix st.frames st.pad h)
    (hopen : framesAfter t h.size st.frames ≠ []) (hne : st.frames ≠ []) :
    ∃ log, decodeTurn fl varPrefix st = .ok (.next
      { cursor := cursorAt (body.drop (t.ownBytes h.size))
        frames := framesAfter t h.size st.frames
        pad := padAfter varPrefix t h.size st.frames st.pad
        log := log
        vars := st.vars ++ itemVars fl t (nextName varPrefix st.frames) h.size body }) := by
  have hlen' : body.length < 2 ^ 32 := (takeHeader_length hh).trans hlen
  obtain ⟨log, hrun⟩ := decodeBranch_ok fl varPrefix
    { st with
      cursor := cursorAt body
      frames := entered st.frames
      pad := writePad st.pad (padColumn st.frames) (nextName varPrefix st.frames) }
    hlen' rfl rfl ht hown hfits hopen
  refine ⟨log, ?_⟩
  rw [decodeTurn_eq fl varPrefix hlen hcursor hne hh hfits.name hfits.column]
  simp only [ht, hrun, bind, Except.bind, pure, Except.pure]

theorem decodeTurn_unknown {st : DecodeState} {rest body : Bytes} {h : Header}
    (hlen : rest.length < 2 ^ 32) (hcursor : st.cursor = cursorAt rest)
    (hh : takeHeader rest = some (h, body)) (ht : secsType? h.code = none)
    (hfits : HeaderFits fl varPrefix st.frames st.pad h) (hne : st.frames ≠ []) :
    ∃ st', decodeTurn fl varPrefix st = .ok (.unknown st') := by
  rw [decodeTurn_eq fl varPrefix hlen hcursor hne hh hfits.name hfits.column]
  simp only [ht]
  exact ⟨_, rfl⟩

def TurnResult.IsFor : TurnResult → Option SecsType → ℕ → Bytes → Prop
  | .next _, some t, size, body => t.ownBytes size ≤ body.length
  | .unknown _, none, _, _ => True
  | _, _, _, _ => False

theorem decodeBranch_inv {st st' : DecodeState} {baseName : Bytes} {frames : List Frame}
    {size : ℕ} {t : SecsType} (h : decodeBranch fl baseName frames size st t = .ok st') :
    t.ownBytes size ≤ st.cursor.rest.length ∧ Terminated st.pad ∧
      (t = .list → frames.length < 100) ∧
      ∀ t', t = .elements t' → ElementNamesFit (t'.kind fl) baseName size := by
  cases t with
  | list =>
      simp only [decodeBranch, bind_ok_iff] at h
      obtain ⟨text, htext, h⟩ := h
      split at h
      · cases h
      · rename_i hnest
        exact ⟨Nat.zero_le _, (padText_iff _).1 ⟨text, htext⟩,
          fun _ => Nat.lt_of_not_le hnest, by simp⟩
  | ascii =>
      simp only [decodeBranch, bind_ok_iff, Prod.exists] at h
      obtain ⟨text, htext, p, cursor, hread, -⟩ := h
      exact ⟨(Cursor.read_inv hread).1, (padText_iff _).1 ⟨text, htext⟩, by simp, by simp⟩
  | elements t =>
      simp only [decodeBranch, bind_ok_iff] at h
      obtain ⟨st₁, h₁, st₂, h₂, -⟩ := h
      obtain ⟨hdata, hterm, hnames⟩ := decodeElementItem_inv h₁ h₂
      rw [t.kind_width] at hdata
      refine ⟨hdata, hterm, by simp, fun t' ht' => ?_⟩
      cases ht'
      exact hnames

/-- A turn that does not fault had a whole header, and the item fits the fixed arrays. -/
theorem fits_of_decodeTurn {st : DecodeState} {rest : Bytes} {r : TurnResult}
    (hcursor : st.cursor = cursorAt rest) (h : decodeTurn fl varPrefix st = .ok r) :
    ∃ hd body, takeHeader rest = some (hd, body) ∧
      HeaderFits fl varPrefix st.frames st.pad hd ∧ r.IsFor (secsType? hd.code) hd.size body := by
  obtain ⟨cursor, frames, pad, log, vars⟩ := st
  subst hcursor
  simp only [decodeTurn, bind_ok_iff, Prod.exists] at h
  obtain ⟨code, size, cursor, hheader, h⟩ := h
  obtain ⟨body, hh, rfl⟩ := readItemHeader_inv hheader
  cases frames with
  | nil => cases h
  | cons top below =>
      simp only [nextName_cons, bind_ok_iff] at h
      obtain ⟨baseName, hbase, h⟩ := h
      obtain ⟨hname, rfl⟩ := nameBuffer_inv hbase
      split at h
      · cases h
      · rename_i hcolumn
        refine ⟨⟨code, size⟩, cursor.rest, hh, ?_⟩
        split at h
        · rename_i hnone
          cases h
          refine ⟨⟨hname, Nat.lt_of_not_le hcolumn, fun hne => (hne hnone).elim, fun hlist => ?_,
            fun t ht => ?_⟩, ?_⟩
          · simp [hnone] at hlist
          · simp [hnone] at ht
          · rw [hnone]
            trivial
        · rename_i t ht
          simp only [bind_ok_iff] at h
          obtain ⟨st', hrun, hret⟩ := h
          cases hret
          obtain ⟨hown, hterm, hnest, hnames⟩ := decodeBranch_inv fl hrun
          refine ⟨⟨hname, Nat.lt_of_not_le hcolumn, fun _ => hterm, fun hlist => ?_,
            fun t' ht' => ?_⟩, ?_⟩
          · rw [ht] at hlist
            cases hlist
            have hlt := hnest rfl
            rwa [List.length_cons] at hlt
          · rw [ht] at ht'
            cases ht'
            exact hnames t' rfl
          · rw [ht]
            exact hown

end

end ScOpen
