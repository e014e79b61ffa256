import ScOpen.OpenTransTable
import ScOpen.Runs

/-!
# Open transactions

The table of open transactions and the timers over whole runs. Beside them, the history says which
transaction an entry and a timer were last used for, and how transactions were completed. As long as
replies arrive in time for the first entry with their system bytes, every transaction is completed
once, and only its own timer is stopped.
-/

namespace ScOpen

/-! ## Steps -/

structure Transaction where
  systemBytes : UInt32
  due : ℕ

inductive Completion where
  | reply
  | timeout
  deriving DecidableEq

/-- The clock, the two tables, and the history: transactions are numbered as they are opened. -/
structure Station where
  clock : ℕ
  openTransTable : OpenTransTable
  timers : Timers
  opened : List Transaction
  entryOwner : Fin MAX_OPEN_TRANS_TABLE → Option ℕ
  timerOwner : Fin MAX_TIMERS → Option ℕ
  completed : List (ℕ × Completion)

def Station.start (clock : ℕ) : Station where
  clock := clock
  openTransTable := fun _ => ⟨false, 0, 0, firstTimer, 0⟩
  timers := fun _ => ⟨false, 0, 0, []⟩
  opened := []
  entryOwner := fun _ => none
  timerOwner := fun _ => none
  completed := []

inductive StationStep where
  /-- `start_timer()` and `open_trans_table_add()`, while the clock may tick. -/
  | opening (systemBytes : UInt32) (programIdx seconds : ℕ) (msg : Bytes) (ticks : ℕ)
  | reply (systemBytes : UInt32)
  | expiry
  | tick (seconds : ℕ)

def Station.complete (s : Station) (owner : Option ℕ) (completion : Completion) : Station :=
  match owner with
  | none => s
  | some id => { s with completed := (id, completion) :: s.completed }

def Station.replied (s : Station) (systemBytes : UInt32) : Option ℕ :=
  (findEntry systemBytes s.openTransTable).bind s.entryOwner

def Station.step (s : Station) : StationStep → Option Station
  | .opening systemBytes programIdx seconds msg ticks =>
      match startTimer (-1) seconds programIdx msg s.clock s.timers with
      | none => none
      | some (k, timers) =>
          match openTransTableAdd programIdx systemBytes k seconds (s.clock + ticks)
              s.openTransTable with
          | none => none
          | some (i, table) => some
              { clock := s.clock + ticks
                openTransTable := table
                timers := timers
                opened := s.opened ++ [⟨systemBytes, s.clock + seconds⟩]
                entryOwner := Function.update s.entryOwner i (some s.opened.length)
                timerOwner := Function.update s.timerOwner k (some s.opened.length)
                completed := s.completed }
  | .reply systemBytes =>
      match openTransTableDel systemBytes s.clock s.openTransTable s.timers with
      | (none, table, timers) => some { s with openTransTable := table, timers := timers }
      | (some _, table, timers) => some
          ({ s with openTransTable := table, timers := timers }.complete
            (s.replied systemBytes) .reply)
  | .expiry =>
      match timerHandler s.clock s.timers with
      | (none, timers) => some { s with timers := timers }
      | (some k, timers) => some ({ s with timers := timers }.complete (s.timerOwner k) .timeout)
  | .tick seconds => some { s with clock := s.clock + seconds }

/-! ## What replies should do -/

def Station.Completed (s : Station) (id : ℕ) : Prop := ∃ completion, (id, completion) ∈ s.completed

def Station.IsOpen (s : Station) (id : ℕ) (systemBytes : UInt32) : Prop :=
  ∃ transaction, s.opened[id]? = some transaction ∧ transaction.systemBytes = systemBytes ∧
    ¬ s.Completed id ∧ s.clock < transaction.due

/-- From `s` to `s'` the timer of a transaction is stopped, and that of no other one. -/
def Station.StopsOnly (s s' : Station) (id : ℕ) : Prop :=
  (∃ k, s.timerOwner k = some id ∧ (s.timers k).active = true ∧ (s'.timers k).active = false) ∧
    ∀ k id', s.timerOwner k = some id' → id' ≠ id → s'.timers k = s.timers k

def Station.Accepts (s : Station) (systemBytes : UInt32) : Prop :=
  (openTransTableDel systemBytes s.clock s.openTransTable s.timers).1.isSome

def Station.RepliesTo (s s' : Station) (systemBytes : UInt32) : Prop :=
  ∃ id, s.IsOpen id systemBytes ∧ s'.completed = (id, .reply) :: s.completed ∧ s.StopsOnly s' id

/-- A reply that meets an entry whose time is not over meets an active one, before the T3 timer
of its transaction goes off. -/
def Station.InTime (s : Station) : StationStep → Prop
  | .reply systemBytes => ∀ i, findEntry systemBytes s.openTransTable = some i →
      s.clock ≤ (s.openTransTable i).endTime → (s.openTransTable i).active = true ∧
        ∀ id transaction, s.entryOwner i = some id → s.opened[id]? = some transaction →
          s.clock < transaction.due
  | _ => True

/-! ## The invariant -/

structure Station.Consistent (s : Station) : Prop where
  entry_opened : ∀ i id, s.entryOwner i = some id → ∃ transaction,
    s.opened[id]? = some transaction ∧
      transaction.systemBytes = (s.openTransTable i).systemBytes
  entry_timer : ∀ i id, s.entryOwner i = some id → ¬ s.Completed id →
    s.timerOwner (s.openTransTable i).timerIdx = some id
  timer_opened : ∀ k id, s.timerOwner k = some id → ∃ transaction,
    s.opened[id]? = some transaction ∧ (s.timers k).endTime = transaction.due
  timer_active : ∀ k id, s.timerOwner k = some id →
    ((s.timers k).active = true ↔ ¬ s.Completed id)
  entry_owned : ∀ i, (s.openTransTable i).active = true → s.entryOwner i ≠ none
  timer_owned : ∀ k, (s.timers k).active = true → s.timerOwner k ≠ none
  entry_unique : ∀ i j id, s.entryOwner i = some id → s.entryOwner j = some id → i = j
  timer_unique : ∀ k l id, s.timerOwner k = some id → s.timerOwner l = some id → k = l
  entry_active : ∀ i id transaction, s.entryOwner i = some id → s.opened[id]? = some transaction →
    s.Completed id → (s.openTransTable i).active = true → transaction.due ≤ s.clock
  entry_inactive : ∀ i id, s.entryOwner i = some id → (s.openTransTable i).active = false →
    s.Completed id ∨ (s.openTransTable i).endTime < s.clock
  completed_opened : ∀ id, s.Completed id → id < s.opened.length
  completed_once : (s.completed.map Prod.fst).Nodup

theorem consistent_start (clock : ℕ) : (Station.start clock).Consistent where
  entry_opened := by simp [Station.start]
  entry_timer := by simp [Station.start]
  timer_opened := by simp [Station.start]
  timer_active := by simp [Station.start]
  entry_owned := by simp [Station.start]
  timer_owned := by simp [Station.start]
  entry_unique := by simp [Station.start]
  timer_unique := by simp [Station.start]
  entry_active := by simp [Station.start]
  entry_inactive := by simp [Station.start]
  completed_opened := by simp [Station.start, Station.Completed]
  completed_once := List.nodup_nil

theorem Station.Consistent.tick {s : Station} (hs : s.Consistent) (seconds : ℕ) :
    ({ s with clock := s.clock + seconds } : Station).Consistent :=
  { hs with
    entry_active := by
      intro i id transaction howner hopened hcompleted hactive
      have hdue := hs.entry_active i id transaction howner hopened hcompleted hactive
      exact hdue.trans (Nat.le_add_right _ _)
    entry_inactive := by
      intro i id howner hinactive
      have hover := hs.entry_inactive i id howner hinactive
      exact hover.imp_right fun hlt => hlt.trans_le (Nat.le_add_right _ _) }

theorem Station.Consistent.owner_lt {s : Station} (hs : s.Consistent) {id : ℕ}
    (h : (∃ i, s.entryOwner i = some id) ∨ ∃ k, s.timerOwner k = some id) :
    id < s.opened.length := by
  rcases h with ⟨i, h⟩ | ⟨k, h⟩
  · obtain ⟨transaction, hopened, -⟩ := hs.entry_opened i id h
    exact (List.getElem?_eq_some_iff.1 hopened).1
  · obtain ⟨transaction, hopened, -⟩ := hs.timer_opened k id h
    exact (List.getElem?_eq_some_iff.1 hopened).1

/-- A fresh owner keeps owners unique. -/
theorem update_unique {ι : Type*} [DecidableEq ι] {owner : ι → Option ℕ} {n : ℕ}
    (hunique : ∀ i j id, owner i = some id → owner j = some id → i = j)
    (hfresh : ∀ i, owner i ≠ some n) (k : ι) (i j : ι) (id : ℕ)
    (hi : Function.update owner k (some n) i = some id)
    (hj : Function.update owner k (some n) j = some id) : i = j := by
  by_cases hik : i = k
  · by_cases hjk : j = k
    · rw [hik, hjk]
    · rw [hik, Function.update_self] at hi
      rw [Function.update_of_ne hjk, ← hi] at hj
      exact (hfresh j hj).elim
  · rw [Function.update_of_ne hik] at hi
    by_cases hjk : j = k
    · rw [hjk, Function.update_self] at hj
      rw [← hj] at hi
      exact (hfresh i hi).elim
    · rw [Function.update_of_ne hjk] at hj
      exact hunique i j id hi hj

/-- A new transaction takes an entry and the timer of a completed transaction, if of any. -/
theorem Station.Consistent.opening {s : Station} (hs : s.Consistent) {k : Fin MAX_TIMERS}
    (hfree : (s.timers k).active = false) (i : Fin MAX_OPEN_TRANS_TABLE) (systemBytes : UInt32)
    (programIdx seconds : ℕ) (msg : Bytes) (ticks : ℕ) :
    ({ clock := s.clock + ticks
       openTransTable := Function.update (cleanUp (s.clock + ticks) s.openTransTable) i
         ⟨true, programIdx, systemBytes, k, s.clock + ticks + seconds⟩
       timers := Function.update s.timers k ⟨true, s.clock + seconds, programIdx, msg⟩
       opened := s.opened ++ [⟨systemBytes, s.clock + seconds⟩]
       entryOwner := Function.update s.entryOwner i (some s.opened.length)
       timerOwner := Function.update s.timerOwner k (some s.opened.length)
       completed := s.completed } : Station).Consistent := by
  have hnew : ¬ s.Completed s.opened.length :=
    fun h => Nat.lt_irrefl _ (hs.completed_opened _ h)
  have hlast : (s.opened ++ [⟨systemBytes, s.clock + seconds⟩])[s.opened.length]? =
      some ⟨systemBytes, s.clock + seconds⟩ := List.getElem?_concat_length
  have hold : ∀ {id}, id < s.opened.length →
      (s.opened ++ [(⟨systemBytes, s.clock + seconds⟩ : Transaction)])[id]? = s.opened[id]? :=
    fun hid => List.getElem?_append_left hid
  constructor
  case entry_opened =>
    intro j id hj
    by_cases hji : j = i
    · obtain rfl := hji
      simp only [Function.update_self, Option.some.injEq] at hj ⊢
      subst hj
      exact ⟨_, hlast, rfl⟩
    · simp only [Function.update_of_ne hji] at hj ⊢
      obtain ⟨transaction, hopened, hbytes⟩ := hs.entry_opened j id hj
      rw [cleanUp_eq, hold (hs.owner_lt (.inl ⟨j, hj⟩))]
      exact ⟨transaction, hopened, hbytes⟩
  case entry_timer =>
    intro j id hj hopen
    by_cases hji : j = i
    · obtain rfl := hji
      simp only [Function.update_self] at hj ⊢
      exact hj
    · simp only [Function.update_of_ne hji] at hj ⊢
      have howner := hs.entry_timer j id hj hopen
      rw [cleanUp_eq]
      have hne : (s.openTransTable j).timerIdx ≠ k := by
        intro heq
        rw [heq] at howner
        have hactive := (hs.timer_active k id howner).2 hopen
        rw [hfree] at hactive
        exact Bool.false_ne_true hactive
      rw [Function.update_of_ne hne]
      exact howner
  case timer_opened =>
    intro l id hl
    by_cases hlk : l = k
    · obtain rfl := hlk
      simp only [Function.update_self, Option.some.injEq] at hl ⊢
      subst hl
      exact ⟨_, hlast, rfl⟩
    · simp only [Function.update_of_ne hlk] at hl ⊢
      rw [hold (hs.owner_lt (.inr ⟨l, hl⟩))]
      exact hs.timer_opened l id hl
  case timer_active =>
    intro l id hl
    by_cases hlk : l = k
    · obtain rfl := hlk
      simp only [Function.update_self, Option.some.injEq] at hl ⊢
      subst hl
      simp only [true_iff]
      exact hnew
    · simp only [Function.update_of_ne hlk] at hl ⊢
      exact hs.timer_active l id hl
  case entry_owned =>
    intro j hj
    by_cases hji : j = i
    · simp [hji]
    · simp only [Function.update_of_ne hji] at hj ⊢
      exact hs.entry_owned j (cleanUp_active.1 hj).1
  case timer_owned =>
    intro l hl
    by_cases hlk : l = k
    · simp [hlk]
    · simp only [Function.update_of_ne hlk] at hl ⊢
      exact hs.timer_owned l hl
  case entry_unique =>
    exact update_unique hs.entry_unique
      (fun j hj => Nat.lt_irrefl _ (hs.owner_lt (.inl ⟨j, hj⟩))) i
  case timer_unique =>
    exact update_unique hs.timer_unique
      (fun l hl => Nat.lt_irrefl _ (hs.owner_lt (.inr ⟨l, hl⟩))) k
  case entry_active =>
    intro j id transaction hj hopened hcompleted hactive
    by_cases hji : j = i
    · obtain rfl := hji
      simp only [Function.update_self, Option.some.injEq] at hj
      subst hj
      exact (hnew hcompleted).elim
    · simp only [Function.update_of_ne hji] at hj hactive
      rw [hold (hs.owner_lt (.inl ⟨j, hj⟩))] at hopened
      have hdue := hs.entry_active j id transaction hj hopened hcompleted
        (cleanUp_active.1 hactive).1
      exact hdue.trans (Nat.le_add_right _ _)
  case entry_inactive =>
    intro j id hj hinactive
    by_cases hji : j = i
    · simp [hji] at hinactive
    · simp only [Function.update_of_ne hji] at hj hinactive ⊢
      rw [cleanUp_eq]
      by_cases hlate : (s.openTransTable j).endTime < s.clock + ticks
      · exact .inr hlate
      · have hwas : (s.openTransTable j).active = false := by
          rw [Bool.eq_false_iff] at hinactive ⊢
          exact fun hactive => hinactive (cleanUp_active.2 ⟨hactive, Nat.le_of_not_lt hlate⟩)
        exact (hs.entry_inactive j id hj hwas).imp_right
          fun hlt => hlt.trans_le (Nat.le_add_right _ _)
  case completed_opened =>
    intro id hid
    rw [List.length_append]
    exact (hs.completed_opened id hid).trans (Nat.lt_succ_self _)
  case completed_once => exact hs.completed_once

/-- A transaction whose timer runs is completed: its timer is stopped, and its entry stays active
only when its time is over. -/
theorem Station.Consistent.complete {s : Station} (hs : s.Consistent) {k : Fin MAX_TIMERS} {id : ℕ}
    (howner : s.timerOwner k = some id) (hactive : (s.timers k).active = true)
    (completion : Completion) {table : OpenTransTable}
    (htable : ∀ i, table i = s.openTransTable i ∨
      s.entryOwner i = some id ∧ table i = { s.openTransTable i with active := false })
    (hover : ∀ i transaction, s.entryOwner i = some id → s.opened[id]? = some transaction →
      (table i).active = true → transaction.due ≤ s.clock) :
    ({ s with
       openTransTable := table
       timers := stopTimer k s.timers
       completed := (id, completion) :: s.completed } : Station).Consistent := by
  have hopen : ¬ s.Completed id := (hs.timer_active k id howner).1 hactive
  have hkept : ∀ i, (table i).systemBytes = (s.openTransTable i).systemBytes ∧
      (table i).timerIdx = (s.openTransTable i).timerIdx ∧
      (table i).endTime = (s.openTransTable i).endTime := by
    intro i
    rcases htable i with h | ⟨-, h⟩ <;> rw [h] <;> exact ⟨rfl, rfl, rfl⟩
  have hcompleted : ∀ id', ({ s with
       openTransTable := table
       timers := stopTimer k s.timers
       completed := (id, completion) :: s.completed } : Station).Completed id' ↔
      id' = id ∨ s.Completed id' := by
    intro id'
    simp only [Station.Completed, List.mem_cons, Prod.mk.injEq, exists_or, exists_and_left,
      exists_eq, and_true]
  constructor
  case entry_opened =>
    intro i id' hi
    simp only [(hkept i).1]
    exact hs.entry_opened i id' hi
  case entry_timer =>
    intro i id' hi hopen'
    simp only [(hkept i).2.1]
    exact hs.entry_timer i id' hi fun h => hopen' ((hcompleted id').2 (.inr h))
  case timer_opened =>
    intro l id' hl
    rw [stopTimer_endTime]
    exact hs.timer_opened l id' hl
  case timer_active =>
    intro l id' hl
    rw [hcompleted]
    by_cases hlk : l = k
    · obtain rfl : id' = id := by
        rw [hlk, howner] at hl
        exact (Option.some.inj hl).symm
      simp [hlk]
    · have hne : id' ≠ id := by
        rintro rfl
        exact hlk (hs.timer_unique l k id' hl howner)
      simp only [stopTimer_ne hlk, hs.timer_active l id' hl]
      simp [hne]
  case entry_owned =>
    intro i hi
    rcases htable i with h | ⟨h, -⟩
    · simp only [h] at hi
      exact hs.entry_owned i hi
    · simp [h]
  case timer_owned =>
    intro l hl
    by_cases hlk : l = k
    · simp [hlk] at hl
    · simp only [stopTimer_ne hlk] at hl
      exact hs.timer_owned l hl
  case entry_unique => exact hs.entry_unique
  case timer_unique => exact hs.timer_unique
  case entry_active =>
    intro i id' transaction hi hopened hdone hi'
    rcases (hcompleted id').1 hdone with rfl | hdone
    · exact hover i transaction hi hopened hi'
    · rcases htable i with h | ⟨-, h⟩
      · simp only [h] at hi'
        exact hs.entry_active i id' transaction hi hopened hdone hi'
      · simp [h] at hi'
  case entry_inactive =>
    intro i id' hi hi'
    simp only [hcompleted, (hkept i).2.2]
    rcases htable i with h | ⟨h, -⟩
    · simp only [h] at hi'
      exact (hs.entry_inactive i id' hi hi').imp_left .inr
    · left
      left
      simp only [h] at hi
      exact (Option.some.inj hi).symm
  case completed_opened =>
    intro id' h
    rcases (hcompleted id').1 h with rfl | h
    · exact hs.owner_lt (.inr ⟨k, howner⟩)
    · exact hs.completed_opened id' h
  case completed_once =>
    rw [List.map_cons, List.nodup_cons]
    refine ⟨?_, hs.completed_once⟩
    intro hmem
    obtain ⟨⟨id', completion'⟩, hentry, heq⟩ := List.mem_map.1 hmem
    obtain rfl : id' = id := heq
    exact hopen ⟨completion', hentry⟩

/-! ## Steps keep it -/

theorem Station.step_opening {s s' : Station} {systemBytes : UInt32} {programIdx seconds : ℕ}
    {msg : Bytes} {ticks : ℕ}
    (h : s.step (.opening systemBytes programIdx seconds msg ticks) = some s') :
    ∃ i k, (s.timers k).active = false ∧ s' =
      { clock := s.clock + ticks
        openTransTable := Function.update (cleanUp (s.clock + ticks) s.openTransTable) i
          ⟨true, programIdx, systemBytes, k, s.clock + ticks + seconds⟩
        timers := Function.update s.timers k ⟨true, s.clock + seconds, programIdx, msg⟩
        opened := s.opened ++ [⟨systemBytes, s.clock + seconds⟩]
        entryOwner := Function.update s.entryOwner i (some s.opened.length)
        timerOwner := Function.update s.timerOwner k (some s.opened.length)
        completed := s.completed } := by
  simp only [Station.step] at h
  split at h
  · cases h
  · rename_i k timers htimer
    split at h
    · cases h
    · rename_i i table hentry
      obtain ⟨hfree, rfl⟩ := startTimer_next htimer
      obtain rfl := openTransTableAdd_entry hentry
      exact ⟨i, k, hfree, (Option.some.inj h).symm⟩

/-- A reply is accepted for the first entry with its system bytes, or nothing changes. -/
theorem Station.step_reply {s s' : Station} {systemBytes : UInt32}
    (h : s.step (.reply systemBytes) = some s') :
    (∃ i, findEntry systemBytes s.openTransTable = some i ∧
      s.clock ≤ (s.openTransTable i).endTime ∧ s.Accepts systemBytes ∧
      s' = ({ s with
        openTransTable := closeEntry i s.openTransTable
        timers := stopTimer (s.openTransTable i).timerIdx s.timers } : Station).complete
          (s.entryOwner i) .reply) ∨
      (∀ i, findEntry systemBytes s.openTransTable = some i →
        (s.openTransTable i).endTime < s.clock) ∧ ¬ s.Accepts systemBytes ∧ s' = s := by
  simp only [Station.step] at h
  rcases openTransTableDel_cases systemBytes s.clock s.openTransTable s.timers with
    ⟨i, hfind, hend, hdel⟩ | ⟨hlate, hdel⟩
  · left
    refine ⟨i, hfind, hend, by rw [Station.Accepts, hdel]; rfl, ?_⟩
    rw [hdel] at h
    simp only [Station.replied, hfind, Option.bind_some] at h
    exact (Option.some.inj h).symm
  · right
    refine ⟨hlate, by rw [Station.Accepts, hdel]; exact Bool.false_ne_true, ?_⟩
    rw [hdel] at h
    exact (Option.some.inj h).symm

theorem Station.step_expiry {s s' : Station} (h : s.step .expiry = some s') :
    (∃ k, (s.timers k).active = true ∧ (s.timers k).endTime ≤ s.clock ∧
      s' = ({ s with timers := stopTimer k s.timers } : Station).complete (s.timerOwner k)
        .timeout) ∨ s' = s := by
  simp only [Station.step, timerHandler] at h
  cases hoverdue : overdueTimer s.clock s.timers with
  | none =>
      rw [hoverdue] at h
      exact .inr (Option.some.inj h).symm
  | some k =>
      obtain ⟨hactive, hend⟩ := overdueTimer_expired hoverdue
      rw [hoverdue] at h
      exact .inl ⟨k, hactive, hend, (Option.some.inj h).symm⟩

/-- An active entry, before the T3 timer of its transaction goes off. -/
theorem Station.Consistent.entry_open {s : Station} (hs : s.Consistent)
    {i : Fin MAX_OPEN_TRANS_TABLE} (hactive : (s.openTransTable i).active = true)
    (hdue : ∀ id transaction, s.entryOwner i = some id → s.opened[id]? = some transaction →
      s.clock < transaction.due) :
    ∃ id, s.entryOwner i = some id ∧ s.IsOpen id (s.openTransTable i).systemBytes ∧
      s.timerOwner (s.openTransTable i).timerIdx = some id ∧
      (s.timers (s.openTransTable i).timerIdx).active = true := by
  obtain ⟨id, howner⟩ := Option.ne_none_iff_exists'.1 (hs.entry_owned i hactive)
  obtain ⟨transaction, hopened, hbytes⟩ := hs.entry_opened i id howner
  have hlt := hdue id transaction howner hopened
  have hopen : ¬ s.Completed id := by
    intro hcompleted
    have hle := hs.entry_active i id transaction howner hopened hcompleted hactive
    exact Nat.lt_irrefl _ (hlt.trans_le hle)
  have htimer := hs.entry_timer i id howner hopen
  exact ⟨id, howner, ⟨transaction, hopened, hbytes, hopen, hlt⟩, htimer,
    (hs.timer_active _ id htimer).2 hopen⟩

theorem Station.Consistent.step {s s' : Station} (hs : s.Consistent) {a : StationStep}
    (hok : s.InTime a) (h : s.step a = some s') : s'.Consistent := by
  cases a with
  | opening systemBytes programIdx seconds msg ticks =>
      obtain ⟨i, k, hfree, rfl⟩ := Station.step_opening h
      exact hs.opening hfree i systemBytes programIdx seconds msg ticks
  | reply systemBytes =>
      rcases Station.step_reply h with ⟨i, hfind, hend, -, rfl⟩ | ⟨-, -, rfl⟩
      · obtain ⟨hactive, hdue⟩ := hok i hfind hend
        obtain ⟨id, howner, -, htimer, hruns⟩ := hs.entry_open hactive hdue
        have htable : ∀ j, closeEntry i s.openTransTable j = s.openTransTable j ∨
            s.entryOwner j = some id ∧ closeEntry i s.openTransTable j =
              { s.openTransTable j with active := false } := by
          intro j
          by_cases hji : j = i
          · rw [hji]
            exact .inr ⟨howner, closeEntry_self i _⟩
          · exact .inl (closeEntry_ne hji _)
        have hover : ∀ j transaction, s.entryOwner j = some id →
            s.opened[id]? = some transaction →
            (closeEntry i s.openTransTable j).active = true → transaction.due ≤ s.clock := by
          intro j transaction hj _ hactive'
          rw [hs.entry_unique j i id hj howner, closeEntry_self] at hactive'
          cases hactive'
        rw [howner]
        exact hs.complete htimer hruns .reply htable hover
      · exact hs
  | expiry =>
      rcases Station.step_expiry h with ⟨k, hruns, hend, rfl⟩ | rfl
      · obtain ⟨id, howner⟩ := Option.ne_none_iff_exists'.1 (hs.timer_owned k hruns)
        obtain ⟨transaction, hopened, hdue⟩ := hs.timer_opened k id howner
        rw [howner]
        refine hs.complete howner hruns .timeout (fun i => .inl rfl) ?_
        intro i transaction' _ hopened' _
        rw [hopened] at hopened'
        rw [← Option.some.inj hopened']
        rw [hdue] at hend
        exact Int.ofNat_le.1 hend
      · exact hs
  | tick seconds =>
      obtain rfl := Option.some.inj h
      exact hs.tick seconds

/-! ## Replies -/

theorem Station.Consistent.reply {s s' : Station} (hs : s.Consistent) {systemBytes : UInt32}
    (h : s.step (.reply systemBytes) = some s') :
    s.InTime (.reply systemBytes) ↔ (s.Accepts systemBytes → s.RepliesTo s' systemBytes) := by
  rcases Station.step_reply h with ⟨i, hfind, hend, haccepts, rfl⟩ | ⟨hlate, hrefuses, -⟩
  · constructor
    · intro hok _
      obtain ⟨hactive, hdue⟩ := hok i hfind hend
      obtain ⟨id, howner, hopen, htimer, hruns⟩ := hs.entry_open hactive hdue
      rw [findEntry_systemBytes hfind] at hopen
      rw [howner]
      refine ⟨id, hopen, rfl, ⟨_, htimer, hruns, ?_⟩, ?_⟩
      · simp [Station.complete]
      · intro k id' hk hne
        refine stopTimer_ne ?_ s.timers
        rintro rfl
        rw [htimer] at hk
        exact hne (Option.some.inj hk).symm
    · intro hreplies j hj hend'
      obtain rfl : i = j := Option.some.inj (hfind.symm.trans hj)
      obtain ⟨id, ⟨transaction, hopened, -, hopen, hlt⟩, hcompleted, -⟩ := hreplies haccepts
      have howner : s.entryOwner i = some id := by
        cases howner : s.entryOwner i with
        | none =>
            rw [howner] at hcompleted
            exact (List.cons_ne_self _ _ hcompleted.symm).elim
        | some id' =>
            rw [howner] at hcompleted
            rw [(Prod.mk.inj (List.head_eq_of_cons_eq hcompleted)).1]
      refine ⟨?_, ?_⟩
      · by_contra hinactive
        rcases hs.entry_inactive i id howner (Bool.eq_false_iff.2 hinactive) with hdone | hlate
        · exact hopen hdone
        · exact absurd hend (Nat.not_le_of_lt hlate)
      · intro id' transaction' howner' hopened'
        obtain rfl : id = id' := Option.some.inj (howner.symm.trans howner')
        rw [hopened] at hopened'
        rw [← Option.some.inj hopened']
        exact hlt
  · constructor
    · exact fun _ haccepts => (hrefuses haccepts).elim
    · intro _ i hfind hend
      exact absurd hend (Nat.not_le_of_lt (hlate i hfind))

/-- In every run whose replies arrive in time, every transaction is completed at most once, and a
further reply is in time exactly when, if it is accepted, it completes a transaction that is open
for it and stops this transaction's timer and no other one. -/
theorem transactions_complete_once {s : Station}
    (h : Runs.Reaches Station.step Station.InTime (fun s => ∃ clock, s = .start clock) s) :
    (s.completed.map Prod.fst).Nodup ∧ ∀ systemBytes s', s.step (.reply systemBytes) = some s' →
      (s.InTime (.reply systemBytes) ↔
        (s.Accepts systemBytes → s.RepliesTo s' systemBytes)) := by
  have hs : s.Consistent := by
    refine h.invariant ?_ fun s a s' hs hok hstep => hs.step hok hstep
    rintro _ ⟨clock, rfl⟩
    exact consistent_start clock
  exact ⟨hs.completed_once, fun systemBytes s' hstep => hs.reply hstep⟩

/-- Transactions with system bytes 7 and 8 are opened, and the reply of the second one arrives. -/
theorem transactions_complete_once_replied :
    ∃ s, [StationStep.opening 7 12 45 [] 0, .opening 8 13 45 [] 0, .tick 44, .reply 8].foldlM
        Station.step (Station.start 100) = some s ∧ s.completed = [(1, .reply)] ∧
      (s.completed.map Prod.fst).Nodup ∧ ∀ systemBytes s', s.step (.reply systemBytes) = some s' →
        (s.InTime (.reply systemBytes) ↔
          (s.Accepts systemBytes → s.RepliesTo s' systemBytes)) := by
  have hadmits : Runs.Admits Station.step Station.InTime (Station.start 100)
      [.opening 7 12 45 [] 0, .opening 8 13 45 [] 0, .tick 44, .reply 8] := by
    refine .cons trivial rfl (.cons trivial rfl (.cons trivial rfl (.cons ?_ rfl trivial)))
    intro i hi _
    cases hi
    refine ⟨rfl, fun id transaction hid htransaction => ?_⟩
    cases hid
    cases htransaction
    decide
  have hrun : ∃ s, [StationStep.opening 7 12 45 [] 0, .opening 8 13 45 [] 0, .tick 44,
      .reply 8].foldlM Station.step (Station.start 100) = some s ∧ s.completed = [(1, .reply)] :=
    ⟨_, rfl, rfl⟩
  obtain ⟨s, hs, hcompleted⟩ := hrun
  have hstart : Runs.Reaches Station.step Station.InTime (fun s => ∃ clock, s = .start clock)
      (Station.start 100) := .start ⟨100, rfl⟩
  exact ⟨s, hs, hcompleted, transactions_complete_once (hstart.admits hadmits hs)⟩

/-- The same reply is accepted a second time. -/
theorem transactions_not_always_once :
    ∃ s, Runs.Reaches Station.step (fun _ _ => True) (fun s => ∃ clock, s = .start clock) s ∧
      ¬ (s.completed.map Prod.fst).Nodup := by
  have hrun : ∃ s, [StationStep.opening 7 12 45 [] 0, .reply 7, .reply 7].foldlM Station.step
      (Station.start 100) = some s ∧ s.completed = [(0, .reply), (0, .reply)] := ⟨_, rfl, rfl⟩
  obtain ⟨s, hrun, hcompleted⟩ := hrun
  refine ⟨s, Runs.Reaches.run (.start ⟨100, rfl⟩) hrun, ?_⟩
  rw [hcompleted]
  simp

end ScOpen
