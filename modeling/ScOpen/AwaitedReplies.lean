import Mathlib.Data.Fintype.Card
import Mathlib.Order.Interval.Finset.Nat
import ScOpen.Transactions

/-!
# Awaited replies

While no T3 timer goes off and replies come in the order of the transactions, the two tables are a
queue of awaited replies: a transaction is put at its end, and a reply takes the first one off it
with the place at which the program goes on. The queue has room for as many transactions as there
are timers to be handed out, which are fewer than there are entries.
-/

namespace ScOpen

structure Awaited where
  systemBytes : UInt32
  programIdx : ℕ

structure Station.Awaits (s : Station) (past waiting : List Awaited) : Prop where
  consistent : s.Consistent
  opened : s.opened.map Transaction.systemBytes = (past ++ waiting).map Awaited.systemBytes
  completed : s.completed = ((List.range past.length).map fun id => (id, Completion.reply)).reverse
  entry : ∀ j x, waiting[j]? = some x → ∃ i, s.entryOwner i = some (past.length + j) ∧
    (s.openTransTable i).active = true ∧ (s.openTransTable i).programIdx = x.programIdx
  due : ∀ id transaction, s.opened[id]? = some transaction → past.length ≤ id →
    s.clock < transaction.due
  entry_due : ∀ i id transaction, s.entryOwner i = some id → s.opened[id]? = some transaction →
    transaction.due ≤ (s.openTransTable i).endTime
  entry_waiting : ∀ i id, s.entryOwner i = some id → (s.openTransTable i).active = true →
    past.length ≤ id
  entry_unused : ∀ i, s.entryOwner i = none → (s.openTransTable i).systemBytes = 0
  timer_place : ∀ k, (s.timers k).active = true → 10 ≤ k.val

def handedOut : Finset (Fin MAX_TIMERS) := Finset.univ.filter fun k => 10 ≤ k.val

theorem card_handedOut : handedOut.card = 40 := by decide

/-! ## Owners -/

/-- Things that belong to different numbers of a range are not more than the range is long. -/
theorem card_le_of_owned {ι : Type*} {owner : ι → Option ℕ}
    (hunique : ∀ i j id, owner i = some id → owner j = some id → i = j) {s : Finset ι} {lo len : ℕ}
    (h : ∀ i ∈ s, ∃ id, owner i = some id ∧ lo ≤ id ∧ id < lo + len) : s.card ≤ len := by
  choose! f hf using h
  have hmaps : ∀ i ∈ s, f i ∈ Finset.Ico lo (lo + len) := by
    intro i hi
    obtain ⟨-, hle, hlt⟩ := hf i hi
    exact Finset.mem_Ico.2 ⟨hle, hlt⟩
  have hinj : Set.InjOn f s := by
    intro i hi j hj heq
    have hj' := (hf j hj).1
    rw [← heq] at hj'
    exact hunique i j (f i) (hf i hi).1 hj'
  have hcard := Finset.card_le_card_of_injOn f hmaps hinj
  rwa [Nat.card_Ico, Nat.add_sub_cancel_left] at hcard

/-- A range of which every number owns something is not longer than there are things. -/
theorem le_card_of_owned {ι : Type*} {owner : ι → Option ℕ} {s : Finset ι} {lo len : ℕ}
    (h : ∀ j < len, ∃ i ∈ s, owner i = some (lo + j)) : len ≤ s.card := by
  classical
  have hsub : Finset.range len ⊆ s.image fun i => (owner i).getD 0 - lo := by
    intro j hj
    obtain ⟨i, hi, howner⟩ := h j (Finset.mem_range.1 hj)
    refine Finset.mem_image.2 ⟨i, hi, ?_⟩
    rw [howner, Option.getD_some, Nat.add_sub_cancel_left]
  have hcard := (Finset.card_le_card hsub).trans Finset.card_image_le
  rwa [Finset.card_range] at hcard

/-! ## Free places -/

theorem freeTimer_isSome {timers : Timers} {k : Fin MAX_TIMERS} (hk : k ∈ handedOut)
    (hfree : (timers k).active = false) : ∃ l, freeTimer timers = some l := by
  apply Option.isSome_iff_exists.1
  apply List.find?_isSome.2
  refine ⟨k, List.mem_finRange k, ?_⟩
  rw [hfree, decide_eq_true (Finset.mem_filter.1 hk).2]
  rfl

theorem emptyEntry_isSome {table : OpenTransTable} {i : Fin MAX_OPEN_TRANS_TABLE}
    (hfree : (table i).active = false) : ∃ j, emptyEntry table = some j := by
  apply Option.isSome_iff_exists.1
  apply List.find?_isSome.2
  refine ⟨i, List.mem_finRange i, ?_⟩
  rw [hfree]
  rfl

theorem emptyEntry_free {table : OpenTransTable} {i : Fin MAX_OPEN_TRANS_TABLE}
    (h : emptyEntry table = some i) : (table i).active = false := by
  have hfound := List.find?_some h
  simpa only [Bool.not_eq_true'] using hfound

namespace Station.Awaits

variable {s : Station} {past waiting : List Awaited}

theorem start (clock : ℕ) : (Station.start clock).Awaits [] [] where
  consistent := consistent_start clock
  opened := rfl
  completed := rfl
  entry := by simp
  due := by simp [Station.start]
  entry_due := by simp [Station.start]
  entry_waiting := by simp [Station.start]
  entry_unused := fun _ _ => rfl
  timer_place := by simp [Station.start]

theorem length_opened (h : s.Awaits past waiting) :
    s.opened.length = past.length + waiting.length := by
  have hlength := congrArg List.length h.opened
  rwa [List.length_map, List.length_map, List.length_append] at hlength

theorem completed_iff (h : s.Awaits past waiting) (id : ℕ) :
    s.Completed id ↔ id < past.length := by
  rw [Station.Completed, h.completed]
  constructor
  · rintro ⟨completion, hmem⟩
    obtain ⟨id', hid', heq⟩ := List.mem_map.1 (List.mem_reverse.1 hmem)
    obtain ⟨rfl, -⟩ := Prod.mk.inj heq
    exact List.mem_range.1 hid'
  · intro hid
    exact ⟨.reply, List.mem_reverse.2 (List.mem_map.2 ⟨id, List.mem_range.2 hid, rfl⟩)⟩

/-- The owner of an active entry is waited for. -/
theorem entry_owner (h : s.Awaits past waiting) {i : Fin MAX_OPEN_TRANS_TABLE}
    (hactive : (s.openTransTable i).active = true) :
    ∃ id, s.entryOwner i = some id ∧ past.length ≤ id ∧ id < past.length + waiting.length := by
  obtain ⟨id, howner⟩ := Option.ne_none_iff_exists'.1 (h.consistent.entry_owned i hactive)
  refine ⟨id, howner, h.entry_waiting i id howner hactive, ?_⟩
  rw [← h.length_opened]
  exact h.consistent.owner_lt (.inl ⟨i, howner⟩)

theorem timer_owner (h : s.Awaits past waiting) {k : Fin MAX_TIMERS}
    (hactive : (s.timers k).active = true) :
    ∃ id, s.timerOwner k = some id ∧ past.length ≤ id ∧ id < past.length + waiting.length := by
  obtain ⟨id, howner⟩ := Option.ne_none_iff_exists'.1 (h.consistent.timer_owned k hactive)
  have hopen := (h.consistent.timer_active k id howner).1 hactive
  rw [h.completed_iff, Nat.not_lt] at hopen
  refine ⟨id, howner, hopen, ?_⟩
  rw [← h.length_opened]
  exact h.consistent.owner_lt (.inr ⟨k, howner⟩)

/-- Every transaction that is waited for has a timer of those that are handed out. -/
theorem waiting_timer (h : s.Awaits past waiting) {j : ℕ} (hj : j < waiting.length) :
    ∃ k ∈ handedOut, s.timerOwner k = some (past.length + j) ∧ (s.timers k).active = true := by
  obtain ⟨i, howner, -⟩ := h.entry j _ (List.getElem?_eq_getElem hj)
  have hopen : ¬ s.Completed (past.length + j) := by
    rw [h.completed_iff]
    omega
  have htimer := h.consistent.entry_timer i _ howner hopen
  have hactive := (h.consistent.timer_active _ _ htimer).2 hopen
  exact ⟨_, Finset.mem_filter.2 ⟨Finset.mem_univ _, h.timer_place _ hactive⟩, htimer, hactive⟩

/-- There is a free timer exactly as long as fewer than forty transactions are waited for. -/
theorem freeTimer_iff (h : s.Awaits past waiting) :
    (∃ k, freeTimer s.timers = some k) ↔ waiting.length < 40 := by
  constructor
  · rintro ⟨k, hk⟩
    obtain ⟨hplace, hfree⟩ := freeTimer_free hk
    have hmem : k ∈ handedOut := Finset.mem_filter.2 ⟨Finset.mem_univ k, hplace⟩
    have howned : ∀ j < waiting.length, ∃ l ∈ handedOut.erase k,
        s.timerOwner l = some (past.length + j) := by
      intro j hj
      obtain ⟨l, hl, howner, hactive⟩ := h.waiting_timer hj
      refine ⟨l, Finset.mem_erase.2 ⟨?_, hl⟩, howner⟩
      rintro rfl
      rw [hfree] at hactive
      cases hactive
    have hle := le_card_of_owned howned
    rw [Finset.card_erase_of_mem hmem, card_handedOut] at hle
    omega
  · intro hlt
    by_contra hnone
    have hall : ∀ k ∈ handedOut, (s.timers k).active = true := by
      intro k hk
      by_contra hinactive
      exact hnone (freeTimer_isSome hk (Bool.eq_false_iff.2 hinactive))
    have hle := card_le_of_owned h.consistent.timer_unique
      (fun k hk => h.timer_owner (hall k hk))
    rw [card_handedOut] at hle
    omega

theorem exists_emptyEntry (h : s.Awaits past waiting) (hlt : waiting.length < 50) (t : ℕ) :
    ∃ i, emptyEntry (cleanUp t s.openTransTable) = some i := by
  by_contra hnone
  have hall : ∀ i ∈ (Finset.univ : Finset (Fin MAX_OPEN_TRANS_TABLE)),
      (s.openTransTable i).active = true := by
    intro i _
    by_contra hinactive
    apply hnone
    apply emptyEntry_isSome (i := i)
    exact Bool.eq_false_iff.2 fun hactive => hinactive (cleanUp_active.1 hactive).1
  have hle := card_le_of_owned h.consistent.entry_unique
    (fun i hi => h.entry_owner (hall i hi))
  rw [Finset.card_univ, Fintype.card_fin] at hle
  exact absurd hlt (Nat.not_lt_of_le hle)

/-! ## A transaction is opened -/

/-- The tables once the timer `k` and the entry `i` are taken. -/
theorem step_opening {k : Fin MAX_TIMERS} {i : Fin MAX_OPEN_TRANS_TABLE}
    (htimer : freeTimer s.timers = some k)
    (hentry : emptyEntry (cleanUp s.clock s.openTransTable) = some i) (x : Awaited) (seconds : ℕ)
    {msg : Bytes} (hmsg : msg.length < 128) :
    s.step (.opening x.systemBytes x.programIdx seconds msg 0) = some
      { clock := s.clock
        openTransTable := Function.update (cleanUp s.clock s.openTransTable) i
          ⟨true, x.programIdx, x.systemBytes, k, s.clock + seconds⟩
        timers := Function.update s.timers k ⟨true, s.clock + seconds, x.programIdx, msg⟩
        opened := s.opened ++ [⟨x.systemBytes, s.clock + seconds⟩]
        entryOwner := Function.update s.entryOwner i (some s.opened.length)
        timerOwner := Function.update s.timerOwner k (some s.opened.length)
        completed := s.completed } := by
  have hstart : startTimer (-1) seconds x.programIdx msg s.clock s.timers = some
      (k, Function.update s.timers k ⟨true, s.clock + seconds, x.programIdx, msg⟩) := by
    rw [startTimer, if_neg (by decide), if_neg (by decide), htimer]
    exact if_neg (Nat.not_le_of_lt hmsg)
  have hadd : openTransTableAdd x.programIdx x.systemBytes k seconds s.clock s.openTransTable =
      some (i, Function.update (cleanUp s.clock s.openTransTable) i
        ⟨true, x.programIdx, x.systemBytes, k, s.clock + seconds⟩) := by
    rw [openTransTableAdd, hentry]
  simp only [Station.step, hstart, Nat.add_zero, hadd]

/-- With fewer than forty transactions waited for, one more can be opened. -/
theorem opening (h : s.Awaits past waiting) (hlt : waiting.length < 40) {x : Awaited}
    {seconds : ℕ} (hseconds : 0 < seconds) {msg : Bytes} (hmsg : msg.length < 128) :
    ∃ s', s.step (.opening x.systemBytes x.programIdx seconds msg 0) = some s' ∧
      s'.Awaits past (waiting ++ [x]) ∧ s'.clock = s.clock := by
  obtain ⟨k, hk⟩ := h.freeTimer_iff.2 hlt
  obtain ⟨i, hi⟩ := h.exists_emptyEntry (hlt.trans (by decide)) s.clock
  have hstep := step_opening hk hi x seconds hmsg
  have hfree := emptyEntry_free hi
  have hopened : ∀ id transaction,
      (s.opened ++ [⟨x.systemBytes, s.clock + seconds⟩])[id]? = some transaction →
      s.opened[id]? = some transaction ∨
        id = s.opened.length ∧ transaction = ⟨x.systemBytes, s.clock + seconds⟩ := by
    intro id transaction hid
    rcases Nat.lt_trichotomy id s.opened.length with hid' | rfl | hid'
    · rw [List.getElem?_append_left hid'] at hid
      exact .inl hid
    · rw [List.getElem?_concat_length] at hid
      exact .inr ⟨rfl, (Option.some.inj hid).symm⟩
    · rw [List.getElem?_eq_none (by simp; omega)] at hid
      cases hid
  refine ⟨_, hstep, ?_, rfl⟩
  constructor
  case consistent => exact h.consistent.step (a := .opening ..) trivial hstep
  case opened =>
    rw [List.map_append, h.opened, ← List.append_assoc]
    simp only [List.map_append]
    rfl
  case completed => exact h.completed
  case entry =>
    intro j y hj
    rcases Nat.lt_or_ge j waiting.length with hjlt | hjge
    · rw [List.getElem?_append_left hjlt] at hj
      obtain ⟨l, howner, hactive, hplace⟩ := h.entry j y hj
      obtain ⟨transaction, htransaction, -⟩ := h.consistent.entry_opened l _ howner
      have hdue := h.due _ _ htransaction (Nat.le_add_right _ _)
      have hend := h.entry_due l _ _ howner htransaction
      have hkept : (cleanUp s.clock s.openTransTable l).active = true :=
        cleanUp_active.2 ⟨hactive, (hdue.trans_le hend).le⟩
      have hne : l ≠ i := by
        rintro rfl
        rw [hfree] at hkept
        cases hkept
      refine ⟨l, ?_, ?_, ?_⟩
      · simp only [Function.update_of_ne hne, howner]
      · simp only [Function.update_of_ne hne, hkept]
      · simp only [Function.update_of_ne hne]
        rw [cleanUp_eq]
        exact hplace
    · have hlast := (List.getElem?_eq_some_iff.1 hj).1
      rw [List.length_append, List.length_singleton] at hlast
      obtain rfl : j = waiting.length := by omega
      rw [List.getElem?_concat_length] at hj
      obtain rfl := Option.some.inj hj
      refine ⟨i, ?_, ?_, ?_⟩
      · simp only [Function.update_self, h.length_opened]
      · simp only [Function.update_self]
      · simp only [Function.update_self]
  case due =>
    intro id transaction hid hle
    rcases hopened id transaction hid with hold | ⟨-, rfl⟩
    · exact h.due id transaction hold hle
    · exact Nat.lt_add_of_pos_right hseconds
  case entry_due =>
    intro l id transaction hl hid
    by_cases hli : l = i
    · obtain rfl := hli
      simp only [Function.update_self] at hl ⊢
      obtain rfl := Option.some.inj hl
      rw [List.getElem?_concat_length] at hid
      rw [← Option.some.inj hid]
    · simp only [Function.update_of_ne hli] at hl ⊢
      have hlt' := h.consistent.owner_lt (.inl ⟨l, hl⟩)
      rw [List.getElem?_append_left hlt'] at hid
      rw [cleanUp_eq]
      exact h.entry_due l id transaction hl hid
  case entry_waiting =>
    intro l id hl hactive
    by_cases hli : l = i
    · obtain rfl := hli
      simp only [Function.update_self] at hl
      obtain rfl := Option.some.inj hl
      rw [h.length_opened]
      exact Nat.le_add_right _ _
    · simp only [Function.update_of_ne hli] at hl hactive
      exact h.entry_waiting l id hl (cleanUp_active.1 hactive).1
  case entry_unused =>
    intro l hl
    by_cases hli : l = i
    · obtain rfl := hli
      simp only [Function.update_self] at hl
      cases hl
    · simp only [Function.update_of_ne hli] at hl ⊢
      rw [cleanUp_eq]
      exact h.entry_unused l hl
  case timer_place =>
    intro l hl
    by_cases hlk : l = k
    · rw [hlk]
      exact (freeTimer_free hk).1
    · simp only [Function.update_of_ne hlk] at hl
      exact h.timer_place l hl

/-- The fortieth awaited reply takes the last timer; the program ends with the next one. -/
theorem opening_iff (h : s.Awaits past waiting) (x : Awaited) {seconds : ℕ}
    (hseconds : 0 < seconds) {msg : Bytes} (hmsg : msg.length < 128) :
    (s.step (.opening x.systemBytes x.programIdx seconds msg 0)).isSome ↔ waiting.length < 40 := by
  constructor
  · intro hsome
    obtain ⟨s', hs'⟩ := Option.isSome_iff_exists.1 hsome
    rw [← h.freeTimer_iff]
    by_contra hnone
    have hfull : freeTimer s.timers = none := by
      rw [Option.eq_none_iff_forall_ne_some]
      exact fun k hk => hnone ⟨k, hk⟩
    have hstart : startTimer (-1) seconds x.programIdx msg s.clock s.timers = none := by
      rw [startTimer, if_neg (by decide), if_neg (by decide), hfull]
    simp only [Station.step, hstart] at hs'
    cases hs'
  · intro hlt
    obtain ⟨s', hs', -⟩ := h.opening hlt hseconds hmsg (x := x)
    rw [hs']
    rfl

/-! ## A reply comes -/

/-- The reply finds the entry of the transaction it is for. -/
theorem findEntry_first {x : Awaited} (h : s.Awaits past (x :: waiting))
    (hnodup : ((past ++ x :: waiting).map Awaited.systemBytes).Nodup) (hpos : x.systemBytes ≠ 0) :
    ∃ i, findEntry x.systemBytes s.openTransTable = some i ∧
      s.entryOwner i = some past.length ∧ (s.openTransTable i).active = true ∧
      (s.openTransTable i).programIdx = x.programIdx := by
  obtain ⟨i, howner, hactive, hplace⟩ := h.entry 0 x rfl
  rw [Nat.add_zero] at howner
  have hat : ((past ++ x :: waiting).map Awaited.systemBytes)[past.length]? =
      some x.systemBytes := by
    rw [List.getElem?_map, List.getElem?_append_right le_rfl, Nat.sub_self]
    rfl
  have hbytes : ∀ l id, s.entryOwner l = some id →
      ((past ++ x :: waiting).map Awaited.systemBytes)[id]? =
        some (s.openTransTable l).systemBytes := by
    intro l id hl
    obtain ⟨transaction, hopened, heq⟩ := h.consistent.entry_opened l id hl
    rw [← h.opened, List.getElem?_map, hopened, ← heq]
    rfl
  have hsome : (findEntry x.systemBytes s.openTransTable).isSome := by
    apply List.find?_isSome.2
    refine ⟨i, List.mem_finRange i, ?_⟩
    rw [decide_eq_true_eq]
    have hi := hbytes i _ howner
    rw [hat] at hi
    exact (Option.some.inj hi).symm
  obtain ⟨l, hl⟩ := Option.isSome_iff_exists.1 hsome
  have hfound := findEntry_systemBytes hl
  cases hlowner : s.entryOwner l with
  | none =>
      rw [h.entry_unused l hlowner] at hfound
      exact absurd hfound.symm hpos
  | some id =>
      have hid := hbytes l id hlowner
      rw [hfound] at hid
      have hid' : id = past.length := by
        have hidlt := (List.getElem?_eq_some_iff.1 hid).1
        exact (List.getElem?_inj hidlt hnodup).1 (hid.trans hat.symm)
      obtain rfl : l = i := by
        rw [hid'] at hlowner
        exact h.consistent.entry_unique l i _ hlowner howner
      exact ⟨l, hl, howner, hactive, hplace⟩

/-- The reply to the first transaction that is waited for gives back the place where the program
goes on, and completes the transaction. -/
theorem reply {x : Awaited} (h : s.Awaits past (x :: waiting))
    (hnodup : ((past ++ x :: waiting).map Awaited.systemBytes).Nodup) (hpos : x.systemBytes ≠ 0) :
    (openTransTableDel x.systemBytes s.clock s.openTransTable s.timers).1 = some x.programIdx ∧
      ∃ s', s.step (.reply x.systemBytes) = some s' ∧ s'.Awaits (past ++ [x]) waiting ∧
        s'.clock = s.clock := by
  obtain ⟨i, hfind, howner, hactive, hplace⟩ := h.findEntry_first hnodup hpos
  obtain ⟨transaction, hopened, -⟩ := h.consistent.entry_opened i _ howner
  have hdue := h.due _ _ hopened le_rfl
  have hend := h.entry_due i _ _ howner hopened
  have hlate : ¬ (s.openTransTable i).endTime < s.clock := by omega
  have hdel : openTransTableDel x.systemBytes s.clock s.openTransTable s.timers =
      (some (s.openTransTable i).programIdx, closeEntry i s.openTransTable,
        stopTimer (s.openTransTable i).timerIdx s.timers) := by
    simp only [openTransTableDel, hfind, if_neg hlate]
  have hstep : s.step (.reply x.systemBytes) = some
      { s with
        openTransTable := closeEntry i s.openTransTable
        timers := stopTimer (s.openTransTable i).timerIdx s.timers
        completed := (past.length, .reply) :: s.completed } := by
    simp only [Station.step, hdel, Station.replied, hfind, Option.bind_some, howner,
      Station.complete]
  have hintime : s.InTime (.reply x.systemBytes) := by
    intro l hl _
    obtain rfl : i = l := Option.some.inj (hfind.symm.trans hl)
    refine ⟨hactive, ?_⟩
    intro id transaction' howner' hopened'
    obtain rfl : past.length = id := Option.some.inj (howner.symm.trans howner')
    exact h.due _ _ hopened' le_rfl
  have hother : ∀ l id, s.entryOwner l = some id → id ≠ past.length →
      closeEntry i s.openTransTable l = s.openTransTable l := by
    intro l id hl hne
    apply closeEntry_ne
    rintro rfl
    exact hne (Option.some.inj (hl.symm.trans howner))
  have hkept : ∀ l, (closeEntry i s.openTransTable l).systemBytes =
      (s.openTransTable l).systemBytes ∧
        (closeEntry i s.openTransTable l).endTime = (s.openTransTable l).endTime := by
    intro l
    by_cases hli : l = i
    · rw [hli, closeEntry_self]
      exact ⟨rfl, rfl⟩
    · rw [closeEntry_ne hli]
      exact ⟨rfl, rfl⟩
  refine ⟨by rw [hdel, hplace], _, hstep, ?_, rfl⟩
  constructor
  case consistent => exact h.consistent.step hintime hstep
  case opened =>
    rw [List.append_assoc]
    exact h.opened
  case completed =>
    rw [List.length_append, List.length_singleton, List.range_succ, List.map_append,
      List.reverse_append, ← h.completed]
    rfl
  case entry =>
    intro j y hj
    obtain ⟨l, hl, hactive', hplace'⟩ := h.entry (j + 1) y hj
    have hsame := hother l _ hl (by omega)
    refine ⟨l, ?_, ?_, ?_⟩
    · rw [hl, List.length_append, List.length_singleton]
      congr 1
      omega
    · exact (congrArg OpenTrans.active hsame).trans hactive'
    · exact (congrArg OpenTrans.programIdx hsame).trans hplace'
  case due =>
    intro id transaction' hid hle
    rw [List.length_append] at hle
    exact h.due id transaction' hid (by omega)
  case entry_due =>
    intro l id transaction' hl hid
    exact (h.entry_due l id transaction' hl hid).trans_eq (hkept l).2.symm
  case entry_waiting =>
    intro l id hl hactive'
    rw [List.length_append, List.length_singleton]
    by_cases hid : id = past.length
    · obtain rfl : l = i := by
        rw [hid] at hl
        exact h.consistent.entry_unique l i _ hl howner
      simp only [closeEntry_self] at hactive'
      cases hactive'
    · simp only [hother l id hl hid] at hactive'
      have hle := h.entry_waiting l id hl hactive'
      omega
  case entry_unused =>
    intro l hl
    exact (hkept l).1.trans (h.entry_unused l hl)
  case timer_place =>
    intro k hk
    by_cases hki : k = (s.openTransTable i).timerIdx
    · simp only [hki, stopTimer_self] at hk
      cases hk
    · simp only [stopTimer_ne hki] at hk
      exact h.timer_place k hk

/-! ## Time passes -/

/-- Time may pass before the first T3 timer of a waiting transaction goes off. -/
theorem tick (h : s.Awaits past waiting) {seconds : ℕ}
    (hdue : ∀ id transaction, s.opened[id]? = some transaction → ¬ s.Completed id →
      s.clock + seconds < transaction.due) :
    ({ s with clock := s.clock + seconds } : Station).Awaits past waiting :=
  { h with
    consistent := h.consistent.tick seconds
    due := by
      intro id transaction hid hle
      apply hdue id transaction hid
      rw [h.completed_iff]
      exact Nat.not_lt_of_le hle }

end Station.Awaits

end ScOpen
