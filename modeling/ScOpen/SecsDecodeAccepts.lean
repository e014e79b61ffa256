import ScOpen.SecsDecodeTurn

/-!
# What the decoder accepts

The decoder walks from header to header: its status is how the walk ends, provided that every
item on the way fits the fixed arrays. It never checks that lists get all their items or that a
length is a multiple of the element size, and it never looks whether a byte is there before it
reads it. So it does what it should on well-formed bodies, and on other bodies only when an
unknown format code stops it in time.
-/

namespace ScOpen

section

variable (fl : FloatText) (varPrefix : Bytes)

/-- Every item on the way fits the fixed arrays, with the open lists and the padded line as the
items before it leave them. -/
def Fits : List Frame → Pad → List Header → Prop
  | _, _, [] => True
  | frames, pad, h :: hs => HeaderFits fl varPrefix frames pad h ∧
      ∀ t, secsType? h.code = some t →
        Fits (framesAfter t h.size frames) (padAfter varPrefix t h.size frames pad) hs

/-- The status that goes with the end of a walk; without one the decoder reads past the end. -/
def WalkEnd.status : WalkEnd → Option ℕ
  | .finished => some 0
  | .unknownCode => some 1
  | .truncated => none

/-- The count of the outermost level stays above the number of bytes that are left, so that the
level is never taken for a complete list. -/
def BottomOpen (n : ℕ) (frames : List Frame) : Prop :=
  ∃ inner bottom, frames = inner ++ [bottom] ∧ n ≤ sub32 bottom.e 1 ∧ bottom.e < 2 ^ 32 ∧
    (inner ≠ [] → bottom.e ≠ 0)

theorem BottomOpen.ne_nil {n : ℕ} {frames : List Frame} (h : BottomOpen n frames) :
    frames ≠ [] := by
  obtain ⟨inner, bottom, rfl, -⟩ := h
  simp

theorem bottomOpen_start {n : ℕ} (hn : n < 2 ^ 32) : BottomOpen n [⟨0, 0⟩] := by
  refine ⟨[], ⟨0, 0⟩, rfl, ?_, by simp, fun h => (h rfl).elim⟩
  rw [sub32_zero_left (by omega) (by omega)]
  omega

theorem closed_append_bottom (inner : List Frame) {bottom : Frame} (h : bottom.e ≠ 0) :
    closed (inner ++ [bottom]) = closed inner ++ [bottom] := by
  induction inner with
  | nil => simp [closed, h]
  | cons f fs ih =>
      by_cases hzero : f.e = 0
      · simpa [closed, hzero] using ih
      · simp [closed, hzero]

theorem BottomOpen.framesAfter {n n' : ℕ} {frames : List Frame} (h : BottomOpen n frames)
    (hn : n' < n) (t : SecsType) (size : ℕ) : BottomOpen n' (framesAfter t size frames) := by
  obtain ⟨inner, bottom, rfl, hle, hlt, hopen⟩ := h
  have hentered : ∃ inner' bottom', entered (inner ++ [bottom]) = inner' ++ [bottom'] ∧
      bottom'.e ≠ 0 ∧ bottom'.e < 2 ^ 32 ∧ n' ≤ sub32 bottom'.e 1 := by
    cases inner with
    | nil =>
        have hwrap : sub32 bottom.e 1 < 2 ^ 32 := Nat.mod_lt _ (by decide)
        refine ⟨[], ⟨sub32 bottom.e 1, bottom.ie + 1⟩, rfl, ?_, hwrap, ?_⟩
        · simp only
          omega
        · rw [sub32_of_le (by omega) hwrap]
          omega
    | cons top inner =>
        have hne := hopen (by simp)
        exact ⟨⟨sub32 top.e 1, top.ie + 1⟩ :: inner, bottom, rfl, hne, hlt, by omega⟩
  obtain ⟨inner', bottom', heq, hne, hlt', hle'⟩ := hentered
  have hopened : ∃ inner'', opened t size (inner ++ [bottom]) = inner'' ++ [bottom'] := by
    rw [opened, heq]
    split
    · exact ⟨⟨size, 0⟩ :: inner', rfl⟩
    · exact ⟨inner', rfl⟩
  obtain ⟨inner'', hopened⟩ := hopened
  rw [ScOpen.framesAfter, hopened, closed_append_bottom _ hne]
  exact ⟨closed inner'', bottom', rfl, hle', hlt', fun _ => hne⟩

theorem decodeLoop_eq (st : DecodeState) :
    decodeLoop fl varPrefix st =
      if st.cursor.length = 0 then .ok (0, st)
      else
        match decodeTurn fl varPrefix st with
        | .error fault => .error fault
        | .ok (.unknown st) => .ok (1, st)
        | .ok (.next st') => decodeLoop fl varPrefix st' := by
  rw [decodeLoop]
  split
  · rfl
  · split <;> rename_i heq <;> simp only [heq]

/-- The loop returns a status exactly when the walk ends with it and all items fit. -/
theorem decodeLoop_status_iff (st : DecodeState) (rest : Bytes) (status : ℕ)
    (hcursor : st.cursor = cursorAt rest) (hlen : rest.length < 2 ^ 32)
    (hbottom : BottomOpen rest.length st.frames) :
    (∃ out, decodeLoop fl varPrefix st = .ok (status, out)) ↔
      Fits fl varPrefix st.frames st.pad (walk rest).1 ∧ (walk rest).2.status = some status := by
  induction hn : rest.length using Nat.strong_induction_on generalizing st rest with
  | _ n ih =>
  by_cases hnil : rest = []
  · subst hnil
    rw [decodeLoop_eq, hcursor, if_pos (by rfl), walk_nil]
    simp [Fits, WalkEnd.status, eq_comm]
  have hlength : st.cursor.length ≠ 0 := by
    rw [hcursor]
    simpa [cursorAt] using hnil
  rw [decodeLoop_eq, if_neg hlength]
  cases hh : takeHeader rest with
  | none =>
      rw [walk_none hnil hh]
      simp only [WalkEnd.status, reduceCtorEq, and_false, iff_false]
      rintro ⟨out, hout⟩
      cases hturn : decodeTurn fl varPrefix st with
      | error fault => simp [hturn] at hout
      | ok r =>
          obtain ⟨hd, body, hbody, -⟩ := fits_of_decodeTurn fl varPrefix hcursor hturn
          rw [hh] at hbody
          cases hbody
  | some p =>
      obtain ⟨hd, body⟩ := p
      have hbody : body.length < rest.length := takeHeader_length hh
      rw [walk_some hh]
      cases ht : secsType? hd.code with
      | none =>
          simp only [Fits, ht, WalkEnd.status, Option.some.injEq, reduceCtorEq, implies_true,
            and_true]
          constructor
          · rintro ⟨out, hout⟩
            cases hturn : decodeTurn fl varPrefix st with
            | error fault => simp [hturn] at hout
            | ok r =>
                obtain ⟨hd', body', hbody', hfits, hr⟩ :=
                  fits_of_decodeTurn fl varPrefix hcursor hturn
                rw [hh] at hbody'
                cases hbody'
                rw [ht] at hr
                cases r with
                | next st' => exact hr.elim
                | unknown st' =>
                    rw [hturn] at hout
                    cases hout
                    exact ⟨hfits, rfl⟩
          · rintro ⟨hfits, hstatus⟩
            obtain ⟨st', hturn⟩ := decodeTurn_unknown fl varPrefix hlen hcursor hh ht hfits
              hbottom.ne_nil
            exact ⟨st', by rw [hturn, ← hstatus]⟩
      | some t =>
          have hinv : ∀ r, decodeTurn fl varPrefix st = .ok r →
              HeaderFits fl varPrefix st.frames st.pad hd ∧ t.ownBytes hd.size ≤ body.length := by
            intro r hturn
            obtain ⟨hd', body', hbody', hfits, hr⟩ :=
              fits_of_decodeTurn fl varPrefix hcursor hturn
            rw [hh] at hbody'
            cases hbody'
            rw [ht] at hr
            cases r with
            | next st' => exact ⟨hfits, hr⟩
            | unknown st' => exact hr.elim
          by_cases hown : t.ownBytes hd.size ≤ body.length
          · have hdrop : (body.drop (t.ownBytes hd.size)).length < rest.length := by
              rw [List.length_drop]
              omega
            have hbottom' := hbottom.framesAfter hdrop t hd.size
            simp only [hown, if_true, Fits, ht, Option.some.injEq, forall_eq']
            by_cases hfits : HeaderFits fl varPrefix st.frames st.pad hd
            · obtain ⟨log, hturn⟩ := decodeTurn_ok fl varPrefix hlen hcursor hh ht hown hfits
                hbottom'.ne_nil hbottom.ne_nil
              simp only [hturn, hfits, true_and]
              exact ih _ (by omega) _ _ rfl (by omega) hbottom' rfl
            · simp only [hfits, false_and, iff_false]
              rintro ⟨out, hout⟩
              cases hturn : decodeTurn fl varPrefix st with
              | error fault => simp [hturn] at hout
              | ok r => exact hfits (hinv r hturn).1
          · simp only [hown, if_false, WalkEnd.status, reduceCtorEq, and_false, iff_false]
            rintro ⟨out, hout⟩
            cases hturn : decodeTurn fl varPrefix st with
            | error fault => simp [hturn] at hout
            | ok r => exact hown (hinv r hturn).2

def FitsBuffers (body : MessageBody) : Prop :=
  Fits fl varPrefix [⟨0, 0⟩] (List.replicate padSize none) (walk body.bytes).1

theorem secsDecode_status_iff (body : MessageBody) (log : Bytes) (status : ℕ) :
    (∃ out, secsDecode fl varPrefix body log = .ok (status, out)) ↔
      FitsBuffers fl varPrefix body ∧ (walk body.bytes).2.status = some status := by
  have hbottom := bottomOpen_start body.length_fits
  exact decodeLoop_status_iff fl varPrefix _ body.bytes status rfl body.length_fits hbottom

/-- The decoder returns, without reading past the end of the body, and its status is 0 exactly
for well-formed bodies. -/
def DecodesRight (body : MessageBody) (log : Bytes) : Prop :=
  ∃ status out, secsDecode fl varPrefix body log = .ok (status, out) ∧
    (status = 0 ↔ WellFormed body.bytes)

theorem decodesRight_iff (body : MessageBody) (log : Bytes) :
    DecodesRight fl varPrefix body log ↔
      FitsBuffers fl varPrefix body ∧
        (WellFormed body.bytes ∨ (walk body.bytes).2 = .unknownCode) := by
  constructor
  · rintro ⟨status, out, hrun, hstatus⟩
    obtain ⟨hfits, hend⟩ := (secsDecode_status_iff fl varPrefix body log status).1 ⟨out, hrun⟩
    refine ⟨hfits, ?_⟩
    cases hwalk : (walk body.bytes).2 with
    | finished =>
        rw [hwalk] at hend
        cases hend
        exact .inl (hstatus.1 rfl)
    | unknownCode => exact .inr rfl
    | truncated =>
        rw [hwalk] at hend
        cases hend
  · rintro ⟨hfits, hwf | hunknown⟩
    · have hend := hwf.walk_finished
      obtain ⟨out, hrun⟩ := (secsDecode_status_iff fl varPrefix body log 0).2
        ⟨hfits, by rw [hend]; rfl⟩
      exact ⟨0, out, hrun, fun _ => hwf, fun _ => rfl⟩
    · obtain ⟨out, hrun⟩ := (secsDecode_status_iff fl varPrefix body log 1).2
        ⟨hfits, by rw [hunknown]; rfl⟩
      refine ⟨1, out, hrun, fun h => absurd h (by decide), fun hwf => ?_⟩
      rw [hwf.walk_finished] at hunknown
      cases hunknown

end

theorem secsDecode_right_iff (fl : FloatText) (varPrefix : Bytes) (body : MessageBody)
    (log : Bytes) :
    DecodesRight fl varPrefix body log ↔
      FitsBuffers fl varPrefix body ∧
        (WellFormed body.bytes ∨ (walk body.bytes).2 = .unknownCode) :=
  decodesRight_iff fl varPrefix body log

/-- The body `01 02` announces a list of two items and has none. -/
theorem secsDecode_not_always_right :
    ¬ ∀ (fl : FloatText) (varPrefix : Bytes) (body : MessageBody) (log : Bytes),
      DecodesRight fl varPrefix body log := by
  intro hall
  let fl : FloatText := ⟨fun _ => [], fun _ => []⟩
  have h := (decodesRight_iff fl (cstr "S1F1") ⟨[0x01, 0x02], by decide⟩ []).1 (hall _ _ _ _)
  have hheader : takeHeader [0x01, 0x02] = some (⟨0, 2⟩, []) := by decide
  have hwalk : walk [0x01, 0x02] = ([⟨0, 2⟩], .finished) := by
    rw [walk_some hheader]
    simp [secsType?, SecsType.ownBytes, walk_nil]
  rcases h.2 with hwf | hunknown
  · obtain ⟨n, hitems⟩ := hwf
    exact absurd (hitems.list_room hheader) (by decide)
  · rw [hwalk] at hunknown
    cases hunknown

end ScOpen
