import ScOpen.MakeLog
import ScOpen.SecsDecodeAccepts

/-!
# When the log can be made

The log walks from header to header like the decoder. It is made exactly when the walk is not
cut short and every item on the way lies at a level whose line fits `pad`.
-/

namespace ScOpen

def LogFits : List Frame → List Header → Prop
  | _, [] => True
  | frames, h :: hs => padColumn frames < logPadSize ∧
      ∀ t, secsType? h.code = some t → LogFits (framesAfter t h.size frames) hs

theorem logPad_ok {frames : List Frame} (h : padColumn frames < logPadSize) :
    ∃ text, logPad frames = .ok text :=
  ⟨_, if_pos h⟩

theorem logPad_inv {frames : List Frame} {text : Bytes} (h : logPad frames = .ok text) :
    padColumn frames < logPadSize := by
  unfold logPad at h
  split at h
  · assumption
  · cases h

theorem logElements_ok (k : ElementKind) (n : ℕ) (st : LogState) (rest : Bytes)
    (hlen : rest.length < 2 ^ 32) (hcursor : st.cursor = cursorAt rest)
    (hdata : k.width * n ≤ rest.length) :
    ∃ log, logElements k n st =
      .ok { st with cursor := cursorAt (rest.drop (k.width * n)), log := log } := by
  induction n generalizing st rest with
  | zero => exact ⟨st.log, by simp only [logElements, Nat.mul_zero, List.drop_zero, ← hcursor]⟩
  | succ n ih =>
      rw [Nat.mul_succ] at hdata
      obtain ⟨log, hrun⟩ := ih
        { st with
          cursor := cursorAt (rest.drop k.width)
          log := st.log ++ k.logText (rest.take k.width) }
        (rest.drop k.width) (by rw [List.length_drop]; omega) rfl (by rw [List.length_drop]; omega)
      refine ⟨log, ?_⟩
      rw [logElements, hcursor, cursorAt_read hlen (by omega)]
      simp only [bind, Except.bind, hrun]
      rw [List.drop_drop, Nat.mul_succ, Nat.add_comm]

theorem logElements_inv {k : ElementKind} {n : ℕ} {st st' : LogState}
    (h : logElements k n st = .ok st') : k.width * n ≤ st.cursor.rest.length := by
  induction n generalizing st with
  | zero => exact Nat.zero_le _
  | succ n ih =>
      simp only [logElements, bind_ok_iff, Prod.exists] at h
      obtain ⟨p, cursor, hread, hrun⟩ := h
      have hshrinks := Cursor.read_shrinks hread
      have hdata := ih hrun
      simp only at hdata
      rw [Nat.mul_succ]
      omega

theorem logClose_ok (frames : List Frame) (st : LogState) (hopen : closed frames ≠ [])
    (hcolumn : padColumn frames < logPadSize) :
    ∃ log, logClose frames st = .ok { st with frames := closed frames, log := log } := by
  induction frames generalizing st with
  | nil => exact (hopen rfl).elim
  | cons f fs ih =>
      by_cases hzero : f.e = 0
      · have hclosed : closed (f :: fs) = closed fs := by simp [closed, hzero]
        have hcolumn' : padColumn fs < logPadSize := by
          simp only [padColumn, List.length_cons] at hcolumn ⊢
          omega
        obtain ⟨text, htext⟩ := logPad_ok hcolumn'
        obtain ⟨log, hrun⟩ := ih { st with log := st.log ++ text ++ cstr ">\n" }
          (hclosed ▸ hopen) hcolumn'
        refine ⟨log, ?_⟩
        rw [logClose, if_pos hzero, hclosed]
        simp only [htext, bind, Except.bind, hrun]
      · have hclosed : closed (f :: fs) = f :: fs := by simp [closed, hzero]
        exact ⟨st.log, by rw [logClose, if_neg hzero, hclosed]⟩

theorem logClose_opened {t : SecsType} {size : ℕ} {frames : List Frame} (st : LogState)
    (hopen : framesAfter t size frames ≠ []) (hcolumn : padColumn frames < logPadSize) :
    ∃ log, logClose (opened t size frames) st =
      .ok { st with frames := framesAfter t size frames, log := log } := by
  by_cases hlist : t = .list ∧ size ≠ 0
  · have hopened : opened t size frames = ⟨size, 0⟩ :: entered frames := if_pos hlist
    have hclosed : framesAfter t size frames = opened t size frames := by
      simp [framesAfter, hopened, closed, hlist.2]
    exact ⟨st.log, by rw [hclosed, hopened, logClose, if_neg hlist.2]⟩
  · have hopened : opened t size frames = entered frames := if_neg hlist
    refine logClose_ok _ st hopen ?_
    rwa [hopened, padColumn_entered]

section

variable (fl : FloatText)

theorem logBranch_ok {frames : List Frame} {size : ℕ} {body : Bytes} {t : SecsType} (text : Bytes)
    (st : LogState) (hlen : body.length < 2 ^ 32) (hcursor : st.cursor = cursorAt body)
    (hown : t.ownBytes size ≤ body.length) (hcolumn : padColumn frames < logPadSize)
    (hopen : framesAfter t size frames ≠ []) :
    ∃ log, logBranch fl text (entered frames) size st t = .ok
      { cursor := cursorAt (body.drop (t.ownBytes size))
        frames := framesAfter t size frames
        log := log } := by
  obtain ⟨cursor, frames', log⟩ := st
  subst hcursor
  have hclose := fun st => logClose_opened st hopen hcolumn
  cases t with
  | list =>
      have hnest : ¬ 100 ≤ (entered frames).length := by
        rw [length_entered]
        simp only [padColumn, logPadSize] at hcolumn
        omega
      have hopened : (if size = 0 then entered frames else ⟨size, 0⟩ :: entered frames) =
          opened .list size frames := by
        by_cases hzero : size = 0 <;> simp [opened, hzero]
      obtain ⟨log', hrun⟩ := hclose _
      refine ⟨log', ?_⟩
      simp only [logBranch, if_neg hnest, hopened]
      exact hrun
  | ascii =>
      rw [opened_elements _ _ _ (by decide)] at hclose
      obtain ⟨log', hrun⟩ := hclose _
      refine ⟨log', ?_⟩
      have hread := cursorAt_read (n := size) hlen hown
      simp only [logBranch, bind, Except.bind, hread]
      exact hrun
  | elements t =>
      rw [opened_elements _ _ _ (by simp)] at hclose
      have hwidth := t.logKind_width fl
      obtain ⟨log₁, hitem⟩ := logElements_ok (t.logKind fl) (size / (t.logKind fl).width)
        ⟨cursorAt body, frames', log ++ text ++ (t.logKind fl).tag⟩ body hlen rfl
        (by rw [hwidth]; exact hown)
      obtain ⟨log', hrun⟩ := hclose _
      refine ⟨log', ?_⟩
      rw [hwidth] at hitem
      simp only [logBranch, hwidth, hitem, bind, Except.bind]
      exact hrun

theorem logBranch_inv {text : Bytes} {frames : List Frame} {size : ℕ} {st st' : LogState}
    {t : SecsType} (h : logBranch fl text frames size st t = .ok st') :
    t.ownBytes size ≤ st.cursor.rest.length := by
  cases t with
  | list => exact Nat.zero_le _
  | ascii =>
      simp only [logBranch, bind_ok_iff, Prod.exists] at h
      obtain ⟨p, cursor, hread, -⟩ := h
      exact (Cursor.read_inv hread).1
  | elements t =>
      simp only [logBranch, bind_ok_iff] at h
      obtain ⟨st₁, hrun, -⟩ := h
      have hdata := logElements_inv hrun
      rwa [t.logKind_width] at hdata

theorem logTurn_eq {st : LogState} {rest body : Bytes} {h : Header}
    (hlen : rest.length < 2 ^ 32) (hcursor : st.cursor = cursorAt rest) (hne : st.frames ≠ [])
    (hh : takeHeader rest = some (h, body)) :
    logTurn fl st = do
      let text ← logPad st.frames
      match secsType? h.code with
      | none => return none
      | some t => do
          return some (← logBranch fl text (entered st.frames) h.size
            { st with cursor := cursorAt body } t) := by
  obtain ⟨cursor, frames, log⟩ := st
  subst hcursor
  cases frames with
  | nil => exact (hne rfl).elim
  | cons top below =>
      simp only [logTurn, readItemHeader_ok hlen hh, bind, Except.bind]
      rfl

theorem logTurn_whole_header {st : LogState} {rest : Bytes} {r : Option LogState}
    (hcursor : st.cursor = cursorAt rest) (h : logTurn fl st = .ok r) :
    ∃ p, takeHeader rest = some p := by
  simp only [logTurn, hcursor, bind_ok_iff, Prod.exists] at h
  obtain ⟨code, size, cursor, hheader, -⟩ := h
  obtain ⟨body, hh, -⟩ := readItemHeader_inv hheader
  exact ⟨_, hh⟩

theorem logLoop_eq (st : LogState) :
    logLoop fl st =
      if st.cursor.length = 0 then .ok st.log
      else
        match logTurn fl st with
        | .error fault => .error fault
        | .ok none => .ok st.log
        | .ok (some st') => logLoop fl st' := by
  rw [logLoop]
  split
  · rfl
  · split <;> rename_i heq <;> simp only [heq]

theorem logLoop_ok_iff (st : LogState) (rest : Bytes) (hcursor : st.cursor = cursorAt rest)
    (hlen : rest.length < 2 ^ 32) (hbottom : BottomOpen rest.length st.frames) :
    (∃ log, logLoop fl st = .ok log) ↔
      LogFits st.frames (walk rest).1 ∧ (walk rest).2 ≠ .truncated := by
  induction hn : rest.length using Nat.strong_induction_on generalizing st rest with
  | _ n ih =>
  by_cases hnil : rest = []
  · subst hnil
    rw [logLoop_eq, hcursor, if_pos (by rfl), walk_nil]
    simp [LogFits]
  have hlength : st.cursor.length ≠ 0 := by
    rw [hcursor]
    simpa [cursorAt] using hnil
  rw [logLoop_eq, if_neg hlength]
  cases hh : takeHeader rest with
  | none =>
      rw [walk_none hnil hh]
      simp only [ne_eq, not_true_eq_false, and_false, iff_false]
      rintro ⟨log, hlog⟩
      cases hturn : logTurn fl st with
      | error fault => simp [hturn] at hlog
      | ok r =>
          obtain ⟨p, hp⟩ := logTurn_whole_header fl hcursor hturn
          rw [hh] at hp
          cases hp
  | some p =>
      obtain ⟨hd, body⟩ := p
      have hbody : body.length < rest.length := takeHeader_length hh
      rw [walk_some hh, logTurn_eq fl hlen hcursor hbottom.ne_nil hh]
      by_cases hcolumn : padColumn st.frames < logPadSize
      case neg =>
        have hpad : logPad st.frames = .error .bufferOverflow := if_neg hcolumn
        simp only [hpad, bind, Except.bind, reduceCtorEq, exists_false, false_iff, not_and]
        intro hfits
        exfalso
        split at hfits
        · exact hcolumn hfits.1
        · split at hfits
          · exact hcolumn hfits.1
          · exact hcolumn hfits.1
      case pos =>
      obtain ⟨text, htext⟩ := logPad_ok hcolumn
      cases ht : secsType? hd.code with
      | none => simp [htext, bind, Except.bind, pure, Except.pure, LogFits, hcolumn, ht]
      | some t =>
          by_cases hown : t.ownBytes hd.size ≤ body.length
          · have hdrop : (body.drop (t.ownBytes hd.size)).length < rest.length := by
              rw [List.length_drop]
              omega
            have hbottom' := hbottom.framesAfter hdrop t hd.size
            obtain ⟨log, hrun⟩ := logBranch_ok fl text { st with cursor := cursorAt body }
              (by omega) rfl hown hcolumn hbottom'.ne_nil
            simp only [htext, bind, Except.bind, hrun, pure, Except.pure, hown, if_true, LogFits,
              hcolumn, true_and, ht, Option.some.injEq, forall_eq']
            exact ih _ (by omega) _ _ rfl (by omega) hbottom' rfl
          · simp only [hown, if_false, ne_eq, not_true_eq_false, and_false, iff_false]
            rintro ⟨log, hlog⟩
            cases hrun : logBranch fl text (entered st.frames) hd.size
                { st with cursor := cursorAt body } t with
            | error fault => simp [htext, bind, Except.bind, hrun] at hlog
            | ok st' => exact hown (logBranch_inv fl hrun)

theorem makeLog_ok_iff (buffer log : Bytes) (hlen : buffer.length < 2 ^ 32) :
    (∃ log', makeLog fl buffer log = .ok log') ↔
      LogFits [⟨0, 0⟩] (walk buffer).1 ∧ (walk buffer).2 ≠ .truncated := by
  exact logLoop_ok_iff fl _ buffer rfl hlen (bottomOpen_start hlen)

end

end ScOpen
