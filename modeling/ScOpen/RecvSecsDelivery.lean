import ScOpen.RecvSecsSession
import ScOpen.SendSecsBlocks

/-!
# Messages over a disturbed line

Every block of a message is received in the end, but it may be refused before, and it may be
received more than once. The message is handed on as it was sent, and once, only when nothing of it
is refused after its first block and neither the first block nor the last one is received again:
the header of the first block is not saved, a refused block drops what has been collected, and
behind the last block a new message begins.
-/

namespace ScOpen

/-! ## Transmissions -/

inductive Attempt where
  | received
  | refused (reads : List LineRead) (h : Naked reads)

/-- A block with the attempts in front of the final one, in which it is received. -/
structure Transmission where
  block : Bytes
  tries : List Attempt

def Attempt.arrival (block : Bytes) : Attempt → Arrival
  | .received => .block block
  | .refused reads h => .naked reads h

def Attempt.isReceived : Attempt → Bool
  | .received => true
  | .refused _ _ => false

def Transmission.body (t : Transmission) : Bytes := t.block.drop 10

def Transmission.arrivals (t : Transmission) : List Arrival :=
  t.tries.map (Attempt.arrival t.block) ++ [.block t.block]

def Transmission.HasRefused (t : Transmission) : Prop := ∃ a ∈ t.tries, a.isReceived = false

/-- The block was received right before it is received finally. -/
def Transmission.repeated (t : Transmission) : Bool := t.tries.getLast?.any Attempt.isReceived

/-- The blocks of a SECS-I message from number `k` on: one header apart from the block number, and
the last block marked. -/
def IsMessage (f : BlockFields) : ℕ → List Bytes → Prop
  | _, [] => False
  | k, [b] => BlockFits b ∧ blockFields b = { f with blockNum := k, lastBlock := true }
  | k, b :: bs => BlockFits b ∧ blockFields b = { f with blockNum := k, lastBlock := false } ∧
      IsMessage f (k + 1) bs

theorem tries_received {tries : List Attempt} (h : ¬ ∃ a ∈ tries, a.isReceived = false) :
    ∃ m, tries = List.replicate m .received := by
  refine ⟨tries.length, List.eq_replicate_iff.2 ⟨rfl, ?_⟩⟩
  intro a ha
  cases a with
  | received => rfl
  | refused reads hn => exact (h ⟨_, ha, rfl⟩).elim

/-- Behind the last refusal there are only receptions. -/
theorem tries_refused {tries : List Attempt} (h : ∃ a ∈ tries, a.isReceived = false) :
    ∃ as reads hn m, tries = as ++ .refused reads hn :: List.replicate m .received := by
  induction tries with
  | nil => simp at h
  | cons a tries ih =>
      by_cases hrest : ∃ a ∈ tries, a.isReceived = false
      · obtain ⟨as, reads, hn, m, rfl⟩ := ih hrest
        exact ⟨a :: as, reads, hn, m, rfl⟩
      · obtain ⟨m, rfl⟩ := tries_received hrest
        cases a with
        | refused reads hn => exact ⟨[], reads, hn, m, rfl⟩
        | received =>
            obtain ⟨a, ha, href⟩ := h
            rcases List.mem_cons.1 ha with rfl | ha
            · simp [Attempt.isReceived] at href
            · exact (hrest ⟨a, ha, href⟩).elim

theorem repeated_received (block : Bytes) (m : ℕ) :
    (Transmission.mk block (List.replicate m .received)).repeated = decide (m ≠ 0) := by
  cases m with
  | zero => rfl
  | succ m =>
      rw [List.replicate_succ']
      simp only [Transmission.repeated, List.getLast?_concat]
      rfl

theorem repeated_refused (block : Bytes) (as : List Attempt) (reads : List LineRead)
    (hn : Naked reads) (m : ℕ) :
    (Transmission.mk block (as ++ .refused reads hn :: List.replicate m .received)).repeated =
      decide (m ≠ 0) := by
  cases m with
  | zero => simp [Transmission.repeated, Attempt.isReceived]
  | succ m =>
      rw [List.replicate_succ', ← List.cons_append, ← List.append_assoc]
      simp only [Transmission.repeated, List.getLast?_concat]
      rfl

/-! ## Headers and numbers -/

theorem headerByte_take (block : Bytes) {i : ℕ} (hi : i < 10) :
    headerByte (block.take 10) i = headerByte block i := by
  simp [headerByte, List.getD, hi]

theorem blockNum_take (block : Bytes) :
    (blockFields (block.take 10)).blockNum = (blockFields block).blockNum := by
  simp only [blockFields]
  rw [headerByte_take block (by omega), headerByte_take block (by omega)]

/-- The next block, with number `k`, will not be taken for a duplicate. -/
structure Collected (k : ℕ) (st : RecvState) : Prop where
  not_first : st.first = false
  older : (blockFields st.lastHeader).blockNum < k

theorem Collected.ne_header {k : ℕ} {st : RecvState} (h : Collected k st) {block : Bytes}
    (hnum : (blockFields block).blockNum = k) : st.lastHeader ≠ block.take 10 := by
  intro heq
  have hlt := h.older
  rw [heq, blockNum_take, hnum] at hlt
  exact Nat.lt_irrefl k hlt

/-! ## What is collected -/

def collect (st : RecvState) (arrivals : List Arrival) : RecvState :=
  arrivals.foldl (fun st a => match a with
    | .block b => st.add b
    | .naked _ _ => .start) st

def Arrival.IsLast : Arrival → Bool
  | .block b => isLastBlock b
  | .naked _ _ => false

theorem collect_append (st : RecvState) (as bs : List Arrival) :
    collect st (as ++ bs) = collect (collect st as) bs := List.foldl_append

theorem deliver_append {arrivals : List Arrival} (h : ∀ a ∈ arrivals, a.IsLast = false)
    (st : RecvState) (rest : List Arrival) :
    deliver st (arrivals ++ rest) = deliver (collect st arrivals) rest := by
  induction arrivals generalizing st with
  | nil => rfl
  | cons a arrivals ih =>
      have hrest := ih fun a' ha' => h a' (List.mem_cons_of_mem a ha')
      cases a with
      | block b =>
          have hlast : isLastBlock b = false := h (.block b) List.mem_cons_self
          rw [List.cons_append, deliver, hlast]
          exact hrest _
      | naked reads hn =>
          rw [List.cons_append, deliver]
          exact hrest _

/-- Every last block that is received ends a message. -/
theorem length_deliver (arrivals : List Arrival) (st : RecvState) :
    (deliver st arrivals).length = arrivals.countP Arrival.IsLast := by
  induction arrivals generalizing st with
  | nil => rfl
  | cons a arrivals ih =>
      cases a with
      | block b =>
          by_cases hlast : isLastBlock b = true
          · rw [deliver, if_pos hlast, List.length_cons, ih, List.countP_cons_of_pos]
            exact hlast
          · rw [deliver, if_neg hlast, ih, List.countP_cons_of_neg]
            exact hlast
      | naked reads h =>
          rw [deliver, ih, List.countP_cons_of_neg]
          simp [Arrival.IsLast]

/-- One message is handed on exactly when nothing else ends one, and it is then what has been
collected. -/
theorem deliver_end {front : List Arrival} {block : Bytes} (hlast : isLastBlock block = true)
    (message : ReceivedMessage) :
    deliver .start (front ++ [.block block]) = [message] ↔
      (∀ a ∈ front, a.IsLast = false) ∧
        message = ⟨(collect .start (front ++ [.block block])).header,
          (collect .start (front ++ [.block block])).body⟩ := by
  have hdeliver : (∀ a ∈ front, a.IsLast = false) →
      deliver .start (front ++ [.block block]) =
        [⟨(collect .start (front ++ [.block block])).header,
          (collect .start (front ++ [.block block])).body⟩] := by
    intro hfront
    rw [deliver_append hfront, deliver, if_pos hlast, collect_append]
    rfl
  constructor
  · intro h
    have hcount := length_deliver (front ++ [.block block]) .start
    rw [h, List.countP_append, List.countP_singleton] at hcount
    have hnone : List.countP Arrival.IsLast front = 0 := by
      simpa [Arrival.IsLast, hlast] using hcount
    have hfront := fun a ha => eq_false_of_ne_true (List.countP_eq_zero.1 hnone a ha)
    rw [hdeliver hfront] at h
    exact ⟨hfront, (List.singleton_inj.1 h).symm⟩
  · rintro ⟨hfront, rfl⟩
    exact hdeliver hfront

/-- A refused block drops what has been collected. -/
theorem collect_naked (st : RecvState) (as : List Arrival) {reads : List LineRead}
    (h : Naked reads) (bs : List Arrival) :
    collect st (as ++ .naked reads h :: bs) = collect .start bs := by
  rw [collect_append]
  rfl

/-- A block behind the first is collected once, however often it is received. -/
theorem collect_again {k : ℕ} {st : RecvState} (h : Collected k st) {block : Bytes}
    (hnum : (blockFields block).blockNum = k) (m : ℕ) :
    collect st (List.replicate (m + 1) (.block block)) =
      { st with lastHeader := block.take 10, body := st.body ++ block.drop 10 } := by
  have hadd : st.add block =
      { st with lastHeader := block.take 10, body := st.body ++ block.drop 10 } := by
    simp [RecvState.add, h.not_first, h.ne_header hnum]
  induction m with
  | zero => exact hadd
  | succ m ih =>
      rw [List.replicate_succ', collect_append, ih]
      simp [collect, RecvState.add, h.not_first]

theorem collected_again {k : ℕ} {st : RecvState} (h : Collected k st) {block : Bytes}
    (hnum : (blockFields block).blockNum = k) (m : ℕ) :
    Collected (k + 1) (collect st (List.replicate (m + 1) (.block block))) := by
  rw [collect_again h hnum m]
  refine ⟨h.not_first, ?_⟩
  rw [blockNum_take, hnum]
  exact Nat.lt_succ_self k

/-- A first block is collected twice when it is received again. -/
theorem collect_first {block : Bytes} {k : ℕ} (hnum : (blockFields block).blockNum = k)
    (hk : 0 < k) (m : ℕ) :
    Collected (k + 1) (collect .start (List.replicate (m + 1) (.block block))) ∧
      (collect .start (List.replicate (m + 1) (.block block))).body =
        if m = 0 then block.drop 10 else block.drop 10 ++ block.drop 10 := by
  have hzero : (blockFields (RecvState.start.add block).lastHeader).blockNum = 0 := by
    have hheader : (RecvState.start.add block).lastHeader = List.replicate 10 0 := rfl
    rw [hheader]
    rfl
  have hone : Collected k (RecvState.start.add block) := ⟨rfl, by rw [hzero]; exact hk⟩
  cases m with
  | zero => exact ⟨⟨rfl, hzero.trans_lt (Nat.succ_pos k)⟩, rfl⟩
  | succ m =>
      have hsplit : collect .start (List.replicate (m + 1 + 1) (.block block)) =
          collect (RecvState.start.add block) (List.replicate (m + 1) (.block block)) := rfl
      rw [hsplit]
      refine ⟨collected_again hone hnum m, ?_⟩
      rw [collect_again hone hnum m]
      rfl

end ScOpen
