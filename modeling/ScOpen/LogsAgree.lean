import ScOpen.LogItems
import ScOpen.SecsDecodersAgree

/-!
# The two logs of a message

The encoder's log and the decoder's log of a message go through the same items. They show the same
tags and the same values but for one type: the encoder prints the byte of an `I1` without its sign.
-/

namespace ScOpen

section

variable (fl : FloatText) (varPrefix : Bytes)

/-! ## What a run prints -/

def decodedItems (bs : Bytes) : List ShownItem := (walkItems bs).map (·.shown (·.kind fl))

def sentItems (bs : Bytes) : List ShownItem := (walkItems bs).map (·.shown (·.logKind fl))

/-- A walk that stops at an unknown type, or in a header that is cut short, meets no more items. -/
theorem walkItems_stop {bs : Bytes}
    (hstop : ∀ hd body, takeHeader bs = some (hd, body) → secsType? hd.code = none) :
    walkItems bs = [] := by
  rw [walkItems]
  split
  · rfl
  · rename_i hd body hh
    rw [hstop hd body hh]

/-- The cursor, the open lists and the log after a turn of the decoder. -/
theorem decodeTurn_prints {st st' : DecodeState} {rest : Bytes} (hcursor : st.cursor = cursorAt rest)
    (hlen : rest.length < 2 ^ 32) (hbottom : BottomOpen rest.length st.frames)
    (hrun : decodeTurn fl varPrefix st = .ok (.next st')) :
    ∃ hd body t, takeHeader rest = some (hd, body) ∧ secsType? hd.code = some t ∧
      st'.cursor = cursorAt (body.drop (t.ownBytes hd.size)) ∧
      BottomOpen (body.drop (t.ownBytes hd.size)).length st'.frames ∧
      ∃ text, st'.log = st.log ++ text ∧ PrintsItem DecodeMargin DecodeCount
        ((⟨t, hd.size, body.take (t.ownBytes hd.size)⟩ : WalkItem).shown (·.kind fl)) text := by
  obtain ⟨hd, body, hh, hfits, hfor⟩ := fits_of_decodeTurn fl varPrefix hcursor hrun
  have hbody : body.length < rest.length := takeHeader_length hh
  cases ht : secsType? hd.code with
  | none =>
      rw [ht] at hfor
      exact hfor.elim
  | some t =>
      rw [ht] at hfor
      have hdrop : (body.drop (t.ownBytes hd.size)).length < rest.length := by
        rw [List.length_drop]
        omega
      have hbottom' := hbottom.framesAfter hdrop t hd.size
      obtain ⟨log, hturn⟩ := decodeTurn_ok fl varPrefix hlen hcursor hh ht hfor hfits
        hbottom'.ne_nil hbottom.ne_nil
      have hst' := hturn
      rw [hrun] at hst'
      cases hst'
      refine ⟨hd, body, t, hh, ht, rfl, hbottom', ?_⟩
      rw [decodeTurn_eq fl varPrefix hlen hcursor hbottom.ne_nil hh hfits.name hfits.column] at hrun
      simp only [ht, bind_ok_iff] at hrun
      obtain ⟨st₁, hbranch, hret⟩ := hrun
      cases hret
      have hprints := decodeBranch_log fl hbranch rfl
      simp only [cursorAt] at hprints ⊢
      exact hprints

theorem decodeLoop_prints {st : DecodeState} {r : ℕ × DecodeState} {rest : Bytes}
    (hcursor : st.cursor = cursorAt rest) (hlen : rest.length < 2 ^ 32)
    (hbottom : BottomOpen rest.length st.frames) (hrun : decodeLoop fl varPrefix st = .ok r) :
    ∃ text, r.2.log = st.log ++ text ∧
      Prints DecodeMargin DecodeCount (decodedItems fl rest) text := by
  induction hn : rest.length using Nat.strong_induction_on generalizing st rest with
  | _ n ih =>
  by_cases hnil : rest = []
  · subst hnil
    rw [decodeLoop_eq, hcursor, if_pos (by rfl)] at hrun
    cases hrun
    refine ⟨[], (List.append_nil _).symm, ?_⟩
    rw [decodedItems, walkItems_nil]
    exact .nil
  have hlength : st.cursor.length ≠ 0 := by
    rw [hcursor]
    simpa [cursorAt] using hnil
  rw [decodeLoop_eq, if_neg hlength] at hrun
  cases hturn : decodeTurn fl varPrefix st with
  | error fault =>
      rw [hturn] at hrun
      cases hrun
  | ok r' =>
      rw [hturn] at hrun
      cases r' with
      | unknown st' =>
          cases hrun
          obtain ⟨hd, body, hh, hfits, hfor⟩ := fits_of_decodeTurn fl varPrefix hcursor hturn
          have hnone : secsType? hd.code = none := by
            cases ht : secsType? hd.code with
            | none => rfl
            | some t =>
                rw [ht] at hfor
                exact hfor.elim
          rw [decodeTurn_eq fl varPrefix hlen hcursor hbottom.ne_nil hh hfits.name hfits.column,
            hnone] at hturn
          cases hturn
          refine ⟨[], (List.append_nil _).symm, ?_⟩
          have hstop : walkItems rest = [] := by
            apply walkItems_stop
            intro hd' body' hh'
            rw [hh] at hh'
            cases hh'
            exact hnone
          rw [decodedItems, hstop]
          exact .nil
      | next st' =>
          obtain ⟨hd, body, t, hh, ht, hcursor', hbottom', text, hlog, hitem⟩ :=
            decodeTurn_prints fl varPrefix hcursor hlen hbottom hturn
          have hdrop : (body.drop (t.ownBytes hd.size)).length < n := by
            have := takeHeader_length hh
            rw [List.length_drop]
            omega
          obtain ⟨next, hlog', hnext⟩ := ih _ hdrop hcursor' (by omega) hbottom' hrun rfl
          refine ⟨text ++ next, by rw [hlog', hlog, List.append_assoc], ?_⟩
          rw [decodedItems, walkItems_some hh ht]
          exact .cons hitem hnext

/-- The cursor, the open lists and the log after a turn of the encoder's log. -/
theorem logTurn_prints {st st' : LogState} {rest : Bytes} (hcursor : st.cursor = cursorAt rest)
    (hlen : rest.length < 2 ^ 32) (hbottom : BottomOpen rest.length st.frames)
    (hrun : logTurn fl st = .ok (some st')) :
    ∃ hd body t, takeHeader rest = some (hd, body) ∧ secsType? hd.code = some t ∧
      st'.cursor = cursorAt (body.drop (t.ownBytes hd.size)) ∧
      BottomOpen (body.drop (t.ownBytes hd.size)).length st'.frames ∧
      ∃ text, st'.log = st.log ++ text ∧ PrintsItem SentMargin SentCount
        ((⟨t, hd.size, body.take (t.ownBytes hd.size)⟩ : WalkItem).shown (·.logKind fl)) text := by
  obtain ⟨⟨hd, body⟩, hh⟩ := logTurn_whole_header fl hcursor hrun
  have hbody : body.length < rest.length := takeHeader_length hh
  rw [logTurn_eq fl hlen hcursor hbottom.ne_nil hh] at hrun
  obtain ⟨text, htext, hrun⟩ := bind_ok_iff.1 hrun
  cases ht : secsType? hd.code with
  | none =>
      rw [ht] at hrun
      cases hrun
  | some t =>
      rw [ht] at hrun
      obtain ⟨st₁, hbranch, hret⟩ := bind_ok_iff.1 hrun
      cases hret
      have hown : t.ownBytes hd.size ≤ body.length := logBranch_inv fl hbranch
      have hdrop : (body.drop (t.ownBytes hd.size)).length < rest.length := by
        rw [List.length_drop]
        omega
      have hbottom' := hbottom.framesAfter hdrop t hd.size
      obtain ⟨log, hok⟩ := logBranch_ok fl text { st with cursor := cursorAt body } (by omega) rfl
        hown (logPad_inv htext) hbottom'.ne_nil
      have hst' := hok
      rw [hbranch] at hst'
      cases hst'
      refine ⟨hd, body, t, hh, ht, rfl, hbottom', ?_⟩
      have hprints := logBranch_log fl hbranch ⟨_, logPad_text htext⟩
      simp only [cursorAt] at hprints ⊢
      exact hprints

theorem logLoop_prints {st : LogState} {log : Bytes} {rest : Bytes}
    (hcursor : st.cursor = cursorAt rest) (hlen : rest.length < 2 ^ 32)
    (hbottom : BottomOpen rest.length st.frames) (hrun : logLoop fl st = .ok log) :
    ∃ text, log = st.log ++ text ∧ Prints SentMargin SentCount (sentItems fl rest) text := by
  induction hn : rest.length using Nat.strong_induction_on generalizing st rest with
  | _ n ih =>
  by_cases hnil : rest = []
  · subst hnil
    rw [logLoop_eq, hcursor, if_pos (by rfl)] at hrun
    cases hrun
    refine ⟨[], (List.append_nil _).symm, ?_⟩
    rw [sentItems, walkItems_nil]
    exact .nil
  have hlength : st.cursor.length ≠ 0 := by
    rw [hcursor]
    simpa [cursorAt] using hnil
  rw [logLoop_eq, if_neg hlength] at hrun
  cases hturn : logTurn fl st with
  | error fault =>
      rw [hturn] at hrun
      cases hrun
  | ok r =>
      rw [hturn] at hrun
      cases r with
      | none =>
          cases hrun
          refine ⟨[], (List.append_nil _).symm, ?_⟩
          have hstop : walkItems rest = [] := by
            apply walkItems_stop
            intro hd body hh
            rw [logTurn_eq fl hlen hcursor hbottom.ne_nil hh] at hturn
            obtain ⟨text, -, hturn⟩ := bind_ok_iff.1 hturn
            cases ht : secsType? hd.code with
            | none => rfl
            | some t =>
                rw [ht] at hturn
                obtain ⟨st₁, -, hret⟩ := bind_ok_iff.1 hturn
                cases hret
          rw [sentItems, hstop]
          exact .nil
      | some st' =>
          obtain ⟨hd, body, t, hh, ht, hcursor', hbottom', text, hlog, hitem⟩ :=
            logTurn_prints fl hcursor hlen hbottom hturn
          have hdrop : (body.drop (t.ownBytes hd.size)).length < n := by
            have := takeHeader_length hh
            rw [List.length_drop]
            omega
          obtain ⟨next, hlog', hnext⟩ := ih _ hdrop hcursor' (by omega) hbottom' hrun rfl
          refine ⟨text ++ next, by rw [hlog', hlog, List.append_assoc], ?_⟩
          rw [sentItems, walkItems_some hh ht]
          exact .cons hitem hnext

/-! ## Where the logs show the same -/

theorem signedValue_one (b : UInt8) :
    signedValue 1 [b] = if b < 0x80 then (b.toNat : ℤ) else b.toNat - 256 := by
  have hvalue : leValue [b] = b.toNat := by simp [leValue]
  have hlt : b.toNat < 256 := b.toNat_lt
  have hcases : b < 0x80 ↔ b.toNat < 128 := Iff.rfl
  rw [signedValue, hvalue, Int.bmod]
  simp only [hcases]
  split <;> split <;> omega

theorem elementTexts_signed1_iff (data : Bytes) (n : ℕ) (hn : n ≤ data.length) :
    elementTexts (ElementType.signed1.logKind fl) n data =
        elementTexts (ElementType.signed1.kind fl) n data ↔
      ∀ b ∈ data.take n, b < 0x80 := by
  induction n generalizing data with
  | zero => simp [elementTexts]
  | succ n ih =>
      cases data with
      | nil => simp at hn
      | cons b data =>
          have htext : (ElementType.signed1.logKind fl).logText [b] =
              (ElementType.signed1.kind fl).logText [b] ↔ b < 0x80 := by
            have hlt : b.toNat < 256 := b.toNat_lt
            have hsent : (ElementType.signed1.logKind fl).logText [b] =
                cstr " " ++ intText b.toNat := by
              rw [← myItoa_eq_intText (by omega)]
              rfl
            have hdecoded : (ElementType.signed1.kind fl).logText [b] =
                cstr " " ++ intText (signedValue 1 [b]) := by
              have hrange : -(2 ^ 63) < signedValue 1 [b] := by
                rw [signedValue_one]
                split <;> omega
              rw [← myItoa_eq_intText hrange]
              rfl
            rw [hsent, hdecoded, List.append_cancel_left_eq, signedValue_one]
            constructor
            · intro h
              have hvalue := intText_injective h
              by_contra hge
              rw [if_neg hge] at hvalue
              omega
            · intro h
              rw [if_pos h]
          have hwidth : (ElementType.signed1.logKind fl).width = 1 := rfl
          have hwidth' : (ElementType.signed1.kind fl).width = 1 := rfl
          simp only [List.length_cons] at hn
          simp only [elementTexts, hwidth, hwidth', List.take_succ_cons, List.take_zero,
            List.drop_succ_cons, List.drop_zero, List.cons.injEq, htext, ih data (by omega),
            List.mem_cons, forall_eq_or_imp]

def NoNegativeI1 (bs : Bytes) : Prop :=
  ∀ item ∈ walkItems bs, item.type = .elements .signed1 → ∀ b ∈ item.data, b < 0x80

theorem WalkItem.shown_same_iff (item : WalkItem)
    (hdata : item.data.length = item.type.ownBytes item.size) :
    item.shown (·.logKind fl) = item.shown (·.kind fl) ↔
      (item.type = .elements .signed1 → ∀ b ∈ item.data, b < 0x80) := by
  obtain ⟨type, size, data⟩ := item
  by_cases hsigned : type = .elements .signed1
  · subst hsigned
    have hsize : data.length = size := by
      simpa [SecsType.ownBytes, ElementType.width] using hdata
    have hwidth : (ElementType.signed1.logKind fl).width = 1 := rfl
    have hwidth' : (ElementType.signed1.kind fl).width = 1 := rfl
    have htag : (ElementType.signed1.logKind fl).tag = (ElementType.signed1.kind fl).tag :=
      ElementType.logKind_tag fl _
    simp only [WalkItem.shown, ShownItem.mk.injEq, hwidth, hwidth', Nat.div_one, htag, true_and,
      forall_const]
    rw [elementTexts_signed1_iff fl data size (by omega), ← hsize, List.take_length]
  · have hsame : (⟨type, size, data⟩ : WalkItem).shown (·.logKind fl) =
        (⟨type, size, data⟩ : WalkItem).shown (·.kind fl) := by
      rcases type with _ | _ | t
      · rfl
      · rfl
      · cases t
        case signed1 => exact (hsigned rfl).elim
        all_goals rfl
    simp only [hsame, hsigned, false_implies]

theorem walkItems_data {bs : Bytes} (hwalk : (walk bs).2 = .finished) :
    ∀ item ∈ walkItems bs, item.data.length = item.type.ownBytes item.size := by
  induction hn : bs.length using Nat.strong_induction_on generalizing bs with
  | _ n ih =>
  by_cases hnil : bs = []
  · subst hnil
    rw [walkItems_nil]
    simp
  cases hh : takeHeader bs with
  | none =>
      rw [walk_none hnil hh] at hwalk
      cases hwalk
  | some p =>
      obtain ⟨hd, rest⟩ := p
      rw [walk_some hh] at hwalk
      cases ht : secsType? hd.code with
      | none =>
          rw [ht] at hwalk
          cases hwalk
      | some t =>
          simp only [ht] at hwalk
          split at hwalk
          · rename_i hown
            rw [walkItems_some hh ht]
            intro item hitem
            rcases List.mem_cons.1 hitem with rfl | hitem
            · exact List.length_take_of_le hown
            · have hlt := takeHeader_length hh
              refine ih _ ?_ hwalk rfl item hitem
              rw [List.length_drop]
              omega
          · cases hwalk

/-- The items are shown the same exactly when no `I1` element is negative. -/
theorem sentItems_eq_iff {bs : Bytes} (hwalk : (walk bs).2 = .finished) :
    sentItems fl bs = decodedItems fl bs ↔ NoNegativeI1 bs := by
  have hdata := walkItems_data hwalk
  rw [sentItems, decodedItems, List.map_inj_left]
  constructor
  · intro h item hitem
    exact (item.shown_same_iff fl (hdata item hitem)).1 (h item hitem)
  · intro h item hitem
    exact (item.shown_same_iff fl (hdata item hitem)).2 (h item hitem)

def LogsShowSame (body : MessageBody) (log : Bytes) : Prop :=
  ∃ sent decoded, makeLog fl body.bytes log = .ok (log ++ sent) ∧
    (∃ st, secsDecode fl varPrefix body log = .ok (0, st) ∧ st.log = log ++ decoded) ∧
    Prints SentMargin SentCount (sentItems fl body.bytes) sent ∧
    Prints DecodeMargin DecodeCount (decodedItems fl body.bytes) decoded ∧
    sentItems fl body.bytes = decodedItems fl body.bytes

theorem logsShowSame_iff {body : MessageBody} (hwf : WellFormed body.bytes) (log : Bytes) :
    LogsShowSame fl varPrefix body log ↔
      LogFits [⟨0, 0⟩] (walk body.bytes).1 ∧ FitsBuffers fl varPrefix body ∧
        NoNegativeI1 body.bytes := by
  have hwalk := hwf.walk_finished
  have hbottom := bottomOpen_start body.length_fits
  constructor
  · rintro ⟨sent, decoded, hsent, ⟨st, hdecode, -⟩, -, -, hsame⟩
    have hlog := (makeLog_ok_iff fl body.bytes log body.length_fits).1 ⟨_, hsent⟩
    have hfits := (secsDecode_status_iff fl varPrefix body log 0).1 ⟨st, hdecode⟩
    exact ⟨hlog.1, hfits.1, (sentItems_eq_iff fl hwalk).1 hsame⟩
  · rintro ⟨hlog, hfits, hpositive⟩
    obtain ⟨text, hsent⟩ := (makeLog_ok_iff fl body.bytes log body.length_fits).2
      ⟨hlog, by rw [hwalk]; simp⟩
    obtain ⟨st, hdecode⟩ := (secsDecode_status_iff fl varPrefix body log 0).2
      ⟨hfits, by rw [hwalk]; rfl⟩
    obtain ⟨sent, rfl, hprints⟩ := logLoop_prints fl rfl body.length_fits hbottom hsent
    obtain ⟨decoded, hst, hprints'⟩ := decodeLoop_prints fl varPrefix rfl body.length_fits hbottom
      hdecode
    exact ⟨sent, decoded, hsent, ⟨st, hdecode, hst⟩, hprints, hprints',
      (sentItems_eq_iff fl hwalk).2 hpositive⟩

end

/-! ## The logs of a message -/

theorem logs_show_same_iff (fl : FloatText) (varPrefix : Bytes) (body : MessageBody) (log : Bytes)
    (hwf : WellFormed body.bytes) :
    LogsShowSame fl varPrefix body log ↔
      LogFits [⟨0, 0⟩] (walk body.bytes).1 ∧ FitsBuffers fl varPrefix body ∧
        NoNegativeI1 body.bytes :=
  logsShowSame_iff fl varPrefix hwf log

theorem wellFormed_unsignedPair : WellFormed unsignedPair.bytes := by
  have hitem := @Items.data (.elements .unsigned1) 1 0 [5, 6] [] (by simp) (by simp)
    (by simp [SecsType.HoldsData, ElementType.width]) .nil
  exact ⟨1, hitem⟩

theorem logs_show_same_unsignedPair :
    LogsShowSame ⟨fun _ => [], fun _ => []⟩ (cstr "S1F1") unsignedPair [] := by
  refine (logs_show_same_iff _ _ _ _ wellFormed_unsignedPair).2 ⟨?_, unsignedPair_fits, ?_⟩
  · rw [walk_unsignedPair]
    exact ⟨by simp [padColumn, logPadSize], fun _ _ => trivial⟩
  · have hheader : takeHeader [0xA5, 2, 5, 6] = some (⟨0xA4, 2⟩, [5, 6]) := rfl
    have hitems : walkItems unsignedPair.bytes = [⟨.elements .unsigned1, 2, [5, 6]⟩] := by
      rw [unsignedPair, walkItems_some hheader rfl]
      simp [SecsType.ownBytes, ElementType.width, walkItems_nil]
    rw [NoNegativeI1, hitems]
    simp

/-- The signed byte -1 is logged as 255 where it is sent. -/
theorem logs_not_always_show_same :
    ¬ ∀ (fl : FloatText) (varPrefix : Bytes) (body : MessageBody) (log : Bytes),
      WellFormed body.bytes → LogsShowSame fl varPrefix body log := by
  intro hall
  have hheader : takeHeader [0x65, 1, 0xFF] = some (⟨0x64, 1⟩, [0xFF]) := rfl
  have hitem := @Items.data (.elements .signed1) 1 0 [0xFF] [] (by simp) (by simp)
    (by simp [SecsType.HoldsData, ElementType.width]) .nil
  have hwf : WellFormed [0x65, 1, 0xFF] := ⟨1, hitem⟩
  have hsame := (logsShowSame_iff ⟨fun _ => [], fun _ => []⟩ [] hwf []).1
    (hall _ _ ⟨[0x65, 1, 0xFF], by decide⟩ _ hwf)
  have hmem : ⟨.elements .signed1, 1, [0xFF]⟩ ∈ walkItems [0x65, 1, 0xFF] := by
    rw [walkItems_some hheader rfl]
    exact List.mem_cons_self
  have hbyte := hsame.2.2 _ hmem rfl 0xFF List.mem_cons_self
  exact absurd hbyte (by decide)

end ScOpen
