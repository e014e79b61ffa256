import ScOpen.RecvSecsDelivery

/-!
# Messages that are received once

Where the data of a message is kept, once the pattern of refusals and repetitions is given: only
from the block of the last refusal on, with the data of this block twice when it is received again
at once.
-/

namespace ScOpen

/-! ## The blocks of a transmitted message -/

def arrivals (ts : List Transmission) : List Arrival := ts.flatMap Transmission.arrivals

def bodies (ts : List Transmission) : Bytes := ts.flatMap Transmission.body

def Numbered : ℕ → List Transmission → Prop
  | _, [] => True
  | k, t :: ts => (blockFields t.block).blockNum = k ∧ Numbered (k + 1) ts

theorem numbered_append (k : ℕ) (pre post : List Transmission) :
    Numbered k (pre ++ post) ↔ Numbered k pre ∧ Numbered (k + pre.length) post := by
  induction pre generalizing k with
  | nil => simp [Numbered]
  | cons t pre ih =>
      rw [List.cons_append, Numbered, Numbered, ih, List.length_cons, and_assoc]
      rw [show k + 1 + pre.length = k + (pre.length + 1) by omega]

theorem isMessage_numbered {f : BlockFields} {k : ℕ} {ts : List Transmission}
    (h : IsMessage f k (ts.map Transmission.block)) : Numbered k ts := by
  induction ts generalizing k with
  | nil => exact h.elim
  | cons t ts ih =>
      cases ts with
      | nil => exact ⟨by rw [h.2], trivial⟩
      | cons t' ts => exact ⟨by rw [h.2.1], ih h.2.2⟩

theorem isMessage_fits {f : BlockFields} {k : ℕ} {ts : List Transmission}
    (h : IsMessage f k (ts.map Transmission.block)) : ∀ t ∈ ts, BlockFits t.block := by
  induction ts generalizing k with
  | nil => exact h.elim
  | cons t ts ih =>
      intro t' ht'
      cases ts with
      | nil =>
          rw [List.mem_singleton.1 ht']
          exact h.1
      | cons t'' ts =>
          rcases List.mem_cons.1 ht' with rfl | ht'
          · exact h.1
          · exact ih h.2.2 t' ht'

/-- Only the final block is marked as the last one. -/
theorem isMessage_last {f : BlockFields} {k : ℕ} {ts : List Transmission}
    (h : IsMessage f k (ts.map Transmission.block)) :
    ∃ init last, ts = init ++ [last] ∧ (∀ t ∈ init, isLastBlock t.block = false) ∧
      isLastBlock last.block = true := by
  induction ts generalizing k with
  | nil => exact h.elim
  | cons t ts ih =>
      cases ts with
      | nil =>
          have hlast : (blockFields t.block).lastBlock = true := by rw [h.2]
          exact ⟨[], t, rfl, by simp, hlast⟩
      | cons t' ts =>
          have hmiddle : (blockFields t.block).lastBlock = false := by rw [h.2.1]
          obtain ⟨init, last, hts, hinit, hlast⟩ := ih h.2.2
          refine ⟨t :: init, last, by rw [hts, List.cons_append], ?_, hlast⟩
          intro t'' ht''
          rcases List.mem_cons.1 ht'' with rfl | ht''
          · exact hmiddle
          · exact hinit t'' ht''

/-- The tries split at the last refusal, or there is none. -/
theorem exists_last_refused {ts : List Transmission} (hne : ts ≠ []) :
    ∃ pre t post, ts = pre ++ t :: post ∧ (pre = [] ∨ t.HasRefused) ∧
      ∀ t ∈ post, ¬ t.HasRefused := by
  induction ts with
  | nil => exact (hne rfl).elim
  | cons t ts ih =>
      by_cases hrest : ∃ t' ∈ ts, t'.HasRefused
      · obtain ⟨t', ht', href⟩ := hrest
        obtain ⟨pre, t'', post, rfl, hfrom, hnone⟩ := ih (List.ne_nil_of_mem ht')
        refine ⟨t :: pre, t'', post, rfl, .inr ?_, hnone⟩
        rcases hfrom with rfl | href''
        · rcases List.mem_cons.1 ht' with rfl | ht'
          · exact href
          · exact (hnone t' ht' href).elim
        · exact href''
      · exact ⟨[], t, ts, rfl, .inl rfl, fun t' ht' href => hrest ⟨t', ht', href⟩⟩

/-! ## The data that is collected -/

def Transmission.kept (t : Transmission) : Bytes :=
  if t.repeated then t.body ++ t.body else t.body

theorem arrivals_replicate (block : Bytes) (m : ℕ) :
    (Transmission.mk block (List.replicate m .received)).arrivals =
      List.replicate (m + 1) (.block block) := by
  rw [Transmission.arrivals, List.map_replicate, List.replicate_succ']
  rfl

/-- Blocks behind the last refusal are collected once each. -/
theorem collect_post {ts : List Transmission} {k : ℕ} {st : RecvState} (hst : Collected k st)
    (hnum : Numbered k ts) (hnone : ∀ t ∈ ts, ¬ t.HasRefused) :
    (collect st (arrivals ts)).body = st.body ++ bodies ts := by
  induction ts generalizing k st with
  | nil => simp [arrivals, bodies, collect]
  | cons t ts ih =>
      obtain ⟨block, tries⟩ := t
      obtain ⟨m, rfl⟩ := tries_received (hnone _ List.mem_cons_self)
      have hagain := collect_again hst hnum.1 m
      have hrest := ih (collected_again hst hnum.1 m) hnum.2
        fun t' ht' => hnone t' (List.mem_cons_of_mem _ ht')
      rw [arrivals, List.flatMap_cons, arrivals_replicate, collect_append]
      refine hrest.trans ?_
      rw [hagain, bodies, bodies, List.flatMap_cons, List.append_assoc]
      rfl

/-- The collecting begins anew at the block of the last refusal. -/
theorem collect_transmissions {pre post : List Transmission} {t : Transmission}
    (hnum : Numbered 1 (pre ++ t :: post)) (ht : pre = [] ∨ t.HasRefused)
    (hnone : ∀ t ∈ post, ¬ t.HasRefused) :
    (collect .start (arrivals (pre ++ t :: post))).body = t.kept ++ bodies post := by
  obtain ⟨block, tries⟩ := t
  obtain ⟨-, hblock, hpost⟩ := (numbered_append 1 pre _).1 hnum
  have hfrom : ∃ m, collect .start (arrivals (pre ++ ⟨block, tries⟩ :: post)) =
      collect (collect .start (List.replicate (m + 1) (.block block))) (arrivals post) ∧
      (Transmission.mk block tries).repeated = decide (m ≠ 0) := by
    have hsplit : arrivals (pre ++ ⟨block, tries⟩ :: post) =
        (arrivals pre ++ (Transmission.mk block tries).arrivals) ++ arrivals post := by
      simp [arrivals]
    rw [hsplit, collect_append]
    by_cases href : (Transmission.mk block tries).HasRefused
    · obtain ⟨as, reads, hn, m, rfl⟩ := tries_refused href
      refine ⟨m, ?_, repeated_refused block as reads hn m⟩
      have harrivals : arrivals pre ++ (Transmission.mk block
          (as ++ .refused reads hn :: List.replicate m .received)).arrivals =
          (arrivals pre ++ as.map (Attempt.arrival block)) ++
            .naked reads hn :: List.replicate (m + 1) (.block block) := by
        simp [Transmission.arrivals, Attempt.arrival, List.replicate_succ']
      rw [harrivals, collect_naked]
    · obtain rfl := ht.resolve_right href
      obtain ⟨m, rfl⟩ := tries_received href
      refine ⟨m, ?_, repeated_received block m⟩
      rw [arrivals_replicate]
      rfl
  obtain ⟨m, hcollect, hrepeated⟩ := hfrom
  obtain ⟨hfirst, hbody⟩ := collect_first hblock (by omega) m
  rw [hcollect, collect_post hfirst hpost hnone, hbody, Transmission.kept, hrepeated]
  by_cases hm : m = 0
  · rw [if_pos hm]
    simp [hm, Transmission.body]
  · rw [if_neg hm]
    simp [hm, Transmission.body]

/-! ## One message -/

/-- What arrives in front of the final block, whose tries are refused, does not end a message. -/
theorem front_isLast {init : List Transmission} {last : Transmission}
    (hinit : ∀ t ∈ init, isLastBlock t.block = false) (hlast : isLastBlock last.block = true) :
    (∀ a ∈ arrivals init ++ last.tries.map (Attempt.arrival last.block), a.IsLast = false) ↔
      ∀ a ∈ last.tries, a.isReceived = false := by
  constructor
  · intro h a ha
    cases a with
    | refused reads hn => rfl
    | received =>
        have hblock := h (.block last.block)
          (List.mem_append_right _ (List.mem_map.2 ⟨_, ha, rfl⟩))
        exact absurd hlast (by simpa [Arrival.IsLast] using hblock)
  · intro h a ha
    rcases List.mem_append.1 ha with ha | ha
    · obtain ⟨t, ht, ha⟩ := List.mem_flatMap.1 ha
      rcases List.mem_append.1 ha with ha | ha
      · obtain ⟨a', -, rfl⟩ := List.mem_map.1 ha
        cases a' with
        | received => exact hinit t ht
        | refused reads hn => rfl
      · rw [List.mem_singleton.1 ha]
        exact hinit t ht
    · obtain ⟨a', ha', rfl⟩ := List.mem_map.1 ha
      cases a' with
      | received => exact absurd (h _ ha') (by simp [Attempt.isReceived])
      | refused reads hn => rfl

theorem arrivals_last (init : List Transmission) (last : Transmission) :
    arrivals (init ++ [last]) =
      (arrivals init ++ last.tries.map (Attempt.arrival last.block)) ++ [.block last.block] := by
  simp [arrivals, Transmission.arrivals]

/-- The message is handed on as it was sent, and nothing else is, whatever has been written to the
line before and however often `recv_secs()` is called again. -/
def DeliversOnce (ts : List Transmission) : Prop :=
  ∀ written blocks, ∃ header calls, ∀ n,
    session (n + calls) ⟨(arrivals ts).flatMap Arrival.reads, none, written, blocks⟩ =
      [⟨header, bodies ts⟩]

theorem deliversOnce_iff_deliver {f : BlockFields} {ts : List Transmission}
    (hmessage : IsMessage f 1 (ts.map Transmission.block)) :
    DeliversOnce ts ↔ ∃ header, deliver .start (arrivals ts) = [⟨header, bodies ts⟩] := by
  have hfits : ∀ a ∈ arrivals ts, a.Fits := by
    intro a ha
    obtain ⟨t, ht, ha⟩ := List.mem_flatMap.1 ha
    have ht := isMessage_fits hmessage t ht
    rcases List.mem_append.1 ha with ha | ha
    · obtain ⟨a', -, rfl⟩ := List.mem_map.1 ha
      cases a' with
      | received => exact ht
      | refused reads hn => trivial
    · rw [List.mem_singleton.1 ha]
      exact ht
  have hne : (arrivals ts).flatMap Arrival.reads ≠ [] := by
    obtain ⟨init, last, rfl, -, -⟩ := isMessage_last hmessage
    rw [arrivals_last]
    simp [Arrival.reads, transmission]
  have hsession : ∀ (n : ℕ) (written : Bytes) (blocks : List Bytes), (arrivals ts).length ≤ n →
      session (n + 1) ⟨(arrivals ts).flatMap Arrival.reads, none, written, blocks⟩ =
        deliver .start (arrivals ts) :=
    fun n written blocks hn => session_arrivals hfits hne n hn written blocks
  constructor
  · intro h
    obtain ⟨header, calls, h⟩ := h [] []
    refine ⟨header, ?_⟩
    have hmany := hsession ((arrivals ts).length + calls) [] [] (Nat.le_add_right _ _)
    rw [Nat.add_right_comm, h] at hmany
    exact hmany.symm
  · rintro ⟨header, h⟩ written blocks
    refine ⟨header, (arrivals ts).length + 1, fun n => ?_⟩
    rw [← Nat.add_assoc, hsession _ _ _ (Nat.le_add_left _ _), h]

/-- The data of the message is collected once: in front of the block of the last refusal, or of
the first block when nothing is refused, there is no data, or exactly what this block then adds
again. -/
def CollectsOnce (ts : List Transmission) : Prop :=
  ∃ pre t post, ts = pre ++ t :: post ∧ (pre = [] ∨ t.HasRefused) ∧
    (∀ t' ∈ post, ¬ t'.HasRefused) ∧ bodies pre = if t.repeated then t.body else []

def EndsOnce (ts : List Transmission) : Prop :=
  ∀ t ∈ ts.getLast?, ∀ a ∈ t.tries, a.isReceived = false

theorem collectsOnce_iff {ts : List Transmission} (hne : ts ≠ []) (hnum : Numbered 1 ts) :
    (collect .start (arrivals ts)).body = bodies ts ↔ CollectsOnce ts := by
  have hbody : ∀ pre t post, ts = pre ++ t :: post → (pre = [] ∨ t.HasRefused) →
      (∀ t' ∈ post, ¬ t'.HasRefused) → ((collect .start (arrivals ts)).body = bodies ts ↔
        bodies pre = if t.repeated then t.body else []) := by
    rintro pre t post rfl ht hpost
    rw [collect_transmissions hnum ht hpost, Transmission.kept]
    simp only [bodies, List.flatMap_append, List.flatMap_cons, ← List.append_assoc]
    rw [List.append_cancel_right_eq]
    split
    · rw [List.append_cancel_right_eq, eq_comm]
    · rw [List.self_eq_append_left]
  constructor
  · intro h
    obtain ⟨pre, t, post, hts, ht, hpost⟩ := exists_last_refused hne
    exact ⟨pre, t, post, hts, ht, hpost, (hbody pre t post hts ht hpost).1 h⟩
  · rintro ⟨pre, t, post, hts, ht, hpost, hpre⟩
    exact (hbody pre t post hts ht hpost).2 hpre

/-- `recv_secs()` hands a message on as it was sent, and once, exactly when its final block is
received once and its data is collected once. -/
theorem recvSecs_delivers_once_iff {f : BlockFields} {ts : List Transmission}
    (hmessage : IsMessage f 1 (ts.map Transmission.block)) :
    DeliversOnce ts ↔ EndsOnce ts ∧ CollectsOnce ts := by
  obtain ⟨init, last, hts, hinit, hlast⟩ := isMessage_last hmessage
  have hne : ts ≠ [] := by simp [hts]
  have hends : EndsOnce ts ↔ ∀ a ∈ last.tries, a.isReceived = false := by
    simp [EndsOnce, hts]
  rw [deliversOnce_iff_deliver hmessage, hends, ← front_isLast hinit hlast,
    ← collectsOnce_iff hne (isMessage_numbered hmessage), hts, arrivals_last]
  constructor
  · rintro ⟨header, h⟩
    obtain ⟨hfront, hbody⟩ := (deliver_end hlast _).1 h
    exact ⟨hfront, (congrArg ReceivedMessage.body hbody).symm⟩
  · rintro ⟨hfront, hbody⟩
    exact ⟨_, (deliver_end hlast _).2 ⟨hfront, by rw [hbody]⟩⟩

/-! ## An event report of two blocks -/

/-- A block whose checksum is not the one that is sent with it is refused once the line is silent. -/
theorem naked_checksum {block cs : Bytes} (hfits : BlockFits block) (hcs : cs.length = 2)
    (hne : cs ≠ secsCalcChecksum block) :
    Naked ((ENQ :: UInt8.ofNat block.length :: (block ++ cs)).map .byte ++ [.timeout]) := by
  intro rest written blocks
  refine ⟨[EOT], ?_⟩
  rw [List.append_assoc, List.map_cons, List.cons_append, recvSecsI]
  simp only [Bool.false_eq_true, if_false, SecsLine.readc, if_true]
  rw [recvEnquired, SecsLine.writec_of_room rfl]
  refine (recvFrame_block hfits cs _ none _ blocks).trans ?_
  rw [recvChecksum_refused hcs hne, sendNak, SecsLine.writec_of_room rfl]
  rfl

def eventFirst : Bytes := [0, 1, 0x86, 11, 0, 1, 0, 0, 0, 7, 0x41]

def eventSecond : Bytes := [0, 1, 0x86, 11, 0x80, 2, 0, 0, 0, 7, 0x01]

def eventReport (firstTries secondTries : List Attempt) : List Transmission :=
  [⟨eventFirst, firstTries⟩, ⟨eventSecond, secondTries⟩]

theorem isMessage_eventReport (firstTries secondTries : List Attempt) :
    IsMessage ⟨1, true, 6, 11, false, 1, 7⟩ 1
      ((eventReport firstTries secondTries).map Transmission.block) := by
  have hfirst : blockFields eventFirst = ⟨1, true, 6, 11, false, 1, 7⟩ := by decide
  have hsecond : blockFields eventSecond = ⟨1, true, 6, 11, true, 2, 7⟩ := by decide
  exact ⟨⟨by simp [eventFirst], by simp [eventFirst]⟩, hfirst,
    ⟨by simp [eventSecond], by simp [eventSecond]⟩, hsecond⟩

/-- The second block comes with another last byte. -/
theorem naked_eventSecond :
    Naked ((ENQ :: UInt8.ofNat eventSecond.length :: (eventSecond ++ [1, 0x22])).map .byte ++
      [.timeout]) :=
  naked_checksum ⟨by simp [eventSecond], by simp [eventSecond]⟩ rfl (by decide)

/-- The second block is refused once, and the first block's data is lost. -/
theorem recvSecs_not_always_once :
    ¬ ∀ f ts, IsMessage f 1 (ts.map Transmission.block) → DeliversOnce ts := by
  intro h
  have honce := h _ _ (isMessage_eventReport [] [.refused _ naked_eventSecond])
  obtain ⟨header, hdeliver⟩ := (deliversOnce_iff_deliver (isMessage_eventReport _ _)).1 honce
  have hbody := congrArg ReceivedMessage.body (List.head_eq_of_cons_eq hdeliver)
  have hlost : (([0x01] : Bytes)) = [0x41, 0x01] := hbody
  simp at hlost

theorem naked_eventFirst :
    Naked ((ENQ :: UInt8.ofNat eventFirst.length :: (eventFirst ++ [0, 0])).map .byte ++
      [.timeout]) :=
  naked_checksum ⟨by simp [eventFirst], by simp [eventFirst]⟩ rfl (by decide)

/-- A refusal in front of the first block does no harm. -/
theorem recvSecs_delivers_once_eventReport :
    DeliversOnce (eventReport [.refused _ naked_eventFirst] []) := by
  refine (recvSecs_delivers_once_iff (isMessage_eventReport _ _)).2 ⟨?_, ?_⟩
  · simp [EndsOnce, eventReport]
  · refine ⟨[], _, _, rfl, .inl rfl, ?_, rfl⟩
    simp [Transmission.HasRefused]

end ScOpen
