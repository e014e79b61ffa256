import ScOpen.LinePhases
import ScOpen.SecsDeadlock
import ScOpen.SendSecsBlocks

/-!
# Stations that share a line

What is expected of two stations on a line of which one has the R-bit, and for which messages it is
so: the line is shared as it should be, but only the headers of the messages get to the other side.
-/

namespace ScOpen

open Dialogues Settling

/-! ## What should arrive -/

/-- What has arrived when each block of the message has been received once. -/
def SecsMessage.whole (m : SecsMessage) (rbit : Bool) : ReceivedMessage :=
  let blocks := messageBlocks rbit m.head m.systemBytes m.encoded 1
  ⟨(blocks.headD []).take 10, blocks.flatMap fun b => b.drop 10⟩

theorem SecsMessage.whole_body (m : SecsMessage) (rbit : Bool) : (m.whole rbit).body = m.encoded :=
  messageBlocks_bodies rbit m.head m.systemBytes m.encoded 1

theorem SecsMessage.arrives_whole_iff (m : SecsMessage) (rbit : Bool) :
    m.arrives rbit = m.whole rbit ↔ m.encoded = [] := by
  constructor
  · intro h
    rw [← m.whole_body rbit, ← h]
    rfl
  · intro h
    have hshort : ([] : Bytes).length ≤ 244 := Nat.zero_le _
    have hblocks : messageBlocks rbit m.head m.systemBytes m.encoded 1 = [m.block rbit] := by
      rw [messageBlocks, h, if_pos hshort, List.append_nil]
      rfl
    rw [whole, hblocks]
    rfl

def lineDelivered (a b : SecsOptions) (fs gs : List SecsMessage) : Line LineStation LineByte :=
  ⟨.resting a [] (gs.map fun m => m.whole b.rbit) fs,
    .resting b [] (fs.map fun m => m.whole a.rbit) gs, [], []⟩

/-- Two stations share a line, of which the left one has the R-bit: only the right one yields, and it
does when both send; never do both send the bytes of a block; no byte is taken for something else;
and every run ends with the blocks of all messages received once and in order. -/
structure SharesLine (n : ℕ) (a b : SecsOptions) (fs gs : List SecsMessage) : Prop where
  insists : ∀ s, Relation.ReflTransGen (LineStep n) (lineStart a b fs gs) s → ¬ s.left.Yields fs
  gives_way : ∀ s t : Line LineStation LineByte,
    Relation.ReflTransGen (LineStep n) (lineStart a b fs gs) s →
      Acts LineStation.act s.flip t.flip → s.right.IsSending gs →
        s.toRight = enq :: t.toRight → t.right.Yields gs
  yields : ∀ s, Relation.ReflTransGen (LineStep n) (lineStart a b fs gs) s →
    s.right.Yields gs → s.left.IsSending fs
  exclusive : ∀ s, Relation.ReflTransGen (LineStep n) (lineStart a b fs gs) s →
    ¬ (s.left.SendsBlock ∧ s.right.SendsBlock)
  unmixed : ∀ s, Relation.ReflTransGen (LineStep n) (lineStart a b fs gs) s →
    s.left.mixed = false ∧ s.right.mixed = false
  delivered : EndsIn (LineStep n) (lineStart a b fs gs) (lineDelivered a b fs gs)

section

variable {n : ℕ} {a b : SecsOptions} {fs gs : List SecsMessage}

/-! ## One run to the end -/

theorem reaches_flip {s t : Line LineStation LineByte}
    (h : Relation.ReflTransGen (LineStep n) s t) :
    Relation.ReflTransGen (LineStep n) s.flip t.flip :=
  h.lift Line.flip fun _ _ hstep => hstep.imp OfBoth.flip OfBoth.flip

/-- With no attempts at all a message is not sent. -/
theorem sendJob_of_attempts (hn : 0 < n) (h : a.attempts = 0) (m : SecsMessage) :
    sendJob n a m = .done ([0], []) := by
  obtain ⟨k, rfl⟩ := Nat.exists_eq_succ_of_ne_zero (Nat.ne_of_gt hn)
  rw [sendJob_eq, sending, OnLine.sendBlock, if_pos h]
  rfl

/-- The left station sends a message while the right one does nothing else. -/
theorem reaches_sent (hn : 0 < n) (m : SecsMessage) (fs gs sa sb : List SecsMessage)
    (ra rb : List ReceivedMessage) :
    ∃ late, Relation.ReflTransGen (LineStep n)
        ⟨.resting a (m :: fs) ra sa, .resting b gs rb sb, [], []⟩
        ⟨.resting a fs ra (sa ++ [m]), .resting b gs (rb ++ late) sb, [], []⟩ ∧
      (a.attempts = 0 → late = []) := by
  have hfirst : LineStep n ⟨.resting a (m :: fs) ra sa, .resting b gs rb sb, [], []⟩
      ⟨(LineStation.resting a fs ra sa).work (sendJob n a m), .resting b gs rb sb, [], []⟩ :=
    choice_left rfl (.send rfl rfl)
  by_cases hattempts : a.attempts = 0
  · have hfinish := leads_finish ([0], []) (.resting a fs ra sa) (.resting b gs rb sb) [] []
    rw [resting_sent a fs sa ra [] m, List.append_nil,
      ← sendJob_of_attempts hn hattempts m] at hfinish
    refine ⟨[], ?_, fun _ => rfl⟩
    rw [List.append_nil]
    exact .head hfirst (reaches_of_leads hfinish)
  · obtain ⟨turns, w, -, hjob, hw⟩ := sendJob_starts hn hattempts m
    have hput := leads_put (hjob.trans hw) (.resting a fs ra sa) (.resting b gs rb sb) [] []
    have hreceive : LineStep n
        ⟨(LineStation.resting a fs ra sa).work w, .resting b gs rb sb, [enq], []⟩
        ⟨(LineStation.resting a fs ra sa).work w,
          (LineStation.resting b gs rb sb).work (recvJob n), [enq], []⟩ :=
      choice_right rfl (.receive rfl)
    obtain ⟨hgoes, -⟩ := enquired_reads hn hattempts hw
    have hrest := leads_receive hn m a.rbit hgoes (.resting a fs ra sa) (.resting b gs rb sb)
    rw [resting_sent a fs sa ra [] m, List.append_nil, resting_received] at hrest
    exact ⟨_, .head hfirst ((reaches_of_leads hput).trans (.head hreceive (reaches_of_leads hrest))),
      fun h => absurd h hattempts⟩

theorem reaches_all_sent (hn : 0 < n) (fs gs sa sb : List SecsMessage)
    (ra rb : List ReceivedMessage) :
    ∃ late, Relation.ReflTransGen (LineStep n)
        ⟨.resting a fs ra sa, .resting b gs rb sb, [], []⟩
        ⟨.resting a [] ra (sa ++ fs), .resting b gs (rb ++ late) sb, [], []⟩ ∧
      (a.attempts = 0 → late = []) := by
  induction fs generalizing sa rb with
  | nil =>
      refine ⟨[], ?_, fun _ => rfl⟩
      rw [List.append_nil, List.append_nil]
  | cons m fs ih =>
      obtain ⟨late, hsent, hlate⟩ := reaches_sent hn m fs gs sa sb ra rb
      obtain ⟨late', hrest, hlate'⟩ := ih (sa ++ [m]) (rb ++ late)
      refine ⟨late ++ late', ?_, fun h => by rw [hlate h, hlate' h]; rfl⟩
      rw [List.append_assoc, List.append_assoc] at hrest
      exact hsent.trans hrest

/-- There is a run to the end, and a station without attempts has sent nothing in it. -/
theorem reaches_end (hn : 0 < n) (a b : SecsOptions) (fs gs : List SecsMessage) :
    ∃ ra rb, Relation.ReflTransGen (LineStep n) (lineStart a b fs gs)
        ⟨.resting a [] ra fs, .resting b [] rb gs, [], []⟩ ∧
      (a.attempts = 0 → rb = []) ∧ (b.attempts = 0 → ra = []) := by
  obtain ⟨rb, hleft, hrb⟩ := @reaches_all_sent n a b hn fs gs [] [] [] []
  obtain ⟨ra, hright, hra⟩ := @reaches_all_sent n b a hn gs [] [] fs rb []
  exact ⟨ra, rb, hleft.trans (reaches_flip hright), hrb, hra⟩

theorem resting_final (ra rb : List ReceivedMessage) (sa sb : List SecsMessage) :
    Final (LineStep n) ⟨.resting a [] ra sa, .resting b [] rb sb, [], []⟩ := by
  intro t ht
  rcases ht with hquiet | hchoice | hchoice
  · exact final_of_waits (.inl rfl) (.inl rfl) t hquiet
  · obtain ⟨-, ⟨_, _, hunsent, -⟩ | ⟨hq, -⟩⟩ := leftChoice_cases hchoice
    · cases hunsent
    · exact hq rfl
  · obtain ⟨-, ⟨_, _, hunsent, -⟩ | ⟨hp, -⟩⟩ := rightChoice_cases hchoice
    · cases hunsent
    · exact hp rfl

theorem map_whole_eq_nil {rbit : Bool} {ms : List SecsMessage}
    (h : [] = ms.map fun m => m.whole rbit) : ms = [] := List.map_eq_nil_iff.1 h.symm

/-- Stations that deliver everything have attempts. -/
theorem attempts_of_delivered (hn : 0 < n) (hne : fs ≠ []) (hne' : gs ≠ [])
    (h : EndsIn (LineStep n) (lineStart a b fs gs) (lineDelivered a b fs gs)) :
    a.attempts ≠ 0 ∧ b.attempts ≠ 0 := by
  obtain ⟨ra, rb, hreaches, hrb, hra⟩ := reaches_end hn a b fs gs
  have hend := h.last _ hreaches (resting_final ra rb fs gs)
  constructor
  · intro hattempts
    have hreceived := congrArg (fun s => s.right.received) hend
    rw [hrb hattempts] at hreceived
    exact hne (map_whole_eq_nil hreceived)
  · intro hattempts
    have hreceived := congrArg (fun s => s.left.received) hend
    rw [hra hattempts] at hreceived
    exact hne' (map_whole_eq_nil hreceived)

theorem arrivals_whole_iff (opts : SecsOptions) (ms : List SecsMessage) :
    opts.arrivals ms = (ms.map fun m => m.whole opts.rbit) ↔ ∀ m ∈ ms, m.encoded = [] := by
  rw [SecsOptions.arrivals, List.map_inj_left]
  exact forall₂_congr fun m _ => m.arrives_whole_iff opts.rbit

/-- Between stations of which one has the R-bit, exactly the messages without a body are
delivered whole. -/
theorem Paired.delivered_iff (hpaired : Paired n a b fs) :
    EndsIn (LineStep n) (lineStart a b fs gs) (lineDelivered a b fs gs) ↔
      ∀ m ∈ fs ++ gs, m.encoded = [] := by
  have hends : EndsIn (LineStep n) (lineStart a b fs gs) (lineEnd a b fs gs) := hpaired.ends
  rw [List.forall_mem_append, ← arrivals_whole_iff a fs, ← arrivals_whole_iff b gs]
  constructor
  · intro h
    obtain ⟨ra, rb, hreaches, -⟩ :=
      reaches_end (Nat.lt_of_succ_lt hpaired.turns) a b fs gs
    have hend := h.last _ hreaches (resting_final ra rb fs gs)
    rw [hends.last _ hreaches (resting_final ra rb fs gs)] at hend
    exact ⟨congrArg (fun s => s.right.received) hend, congrArg (fun s => s.left.received) hend⟩
  · rintro ⟨hfs, hgs⟩
    rw [lineDelivered, ← hfs, ← hgs]
    exact hends

/-! ## Which stations share a line -/

/-- A station without the R-bit that takes `ENQ` while it sends yields. -/
theorem Phased.gives_way (hopposed : Opposed n a b) (hb : b.rbit = false)
    {s t : Line LineStation LineByte} (h : Phased n a b fs gs s)
    (hacts : Acts LineStation.act s.flip t.flip) (hsending : s.right.IsSending gs)
    (hq : s.toRight = enq :: t.toRight) : t.right.Yields gs := by
  obtain ⟨taken, put, hdoes, hright, -, -⟩ := hacts
  have htaken : taken ++ t.toRight = [enq] ++ t.toRight := hright.symm.trans hq
  obtain rfl := List.append_cancel_right htaken
  have hdoes' : Does LineStation.act s.right [enq] put t.right := hdoes
  generalize t.right = r at hdoes' ⊢
  cases hdoes' with
  | read hact =>
      obtain ⟨role, next, hjob, rfl⟩ := LineStation.job_of_read hact
      refine ⟨hsending, ?_⟩
      rcases h with h | h
      · obtain ⟨p, hp⟩ := h.right_gives_way hopposed hb hq hjob
        exact ⟨p, congrArg some hp⟩
      · obtain ⟨p, hp⟩ := h.left_gives_way hopposed.flip hb hq hjob
        exact ⟨p, congrArg some hp⟩

theorem Phased.exclusive (hopposed : Opposed n a b) {s : Line LineStation LineByte}
    (h : Phased n a b fs gs s) : ¬ (s.left.SendsBlock ∧ s.right.SendsBlock) := by
  rintro ⟨hleft, hright⟩
  rcases h with h | h
  · exact h.right_not_block hopposed hright
  · exact h.right_not_block hopposed.flip hleft

theorem Phased.insists (hopposed : Opposed n a b) (ha : a.rbit = true)
    {s : Line LineStation LineByte} (h : Phased n a b fs gs s) : ¬ s.left.Yields fs := by
  rcases h with h | h
  · exact h.left_not_yields hopposed
  · intro hyields
    obtain ⟨hrbit, -⟩ := h.right_yields hopposed.flip hyields
    cases ha.symm.trans hrbit

theorem Phased.yields (hopposed : Opposed n a b) {s : Line LineStation LineByte}
    (h : Phased n a b fs gs s) (hyields : s.right.Yields gs) : s.left.IsSending fs := by
  rcases h with h | h
  · exact (h.right_yields hopposed hyields).2
  · exact absurd hyields (h.left_not_yields hopposed.flip)

/-- Two stations, one with the R-bit and one without, that both have messages share a line exactly
when both make at least one attempt to send and no message has a body. -/
theorem stations_share_iff (ha : a.rbit = true) (hb : b.rbit = false) (hne : fs ≠ [])
    (hne' : gs ≠ []) (hn : fs.length + 2 ≤ n) :
    SharesLine n a b fs gs ↔
      (a.attempts ≠ 0 ∧ b.attempts ≠ 0) ∧ ∀ m ∈ fs ++ gs, m.encoded = [] := by
  constructor
  · intro h
    obtain ⟨hattempts, hattempts'⟩ := attempts_of_delivered (by omega) hne hne' h.delivered
    have hpaired := paired_of_le ha hb hattempts hattempts' hn
    exact ⟨⟨hattempts, hattempts'⟩, hpaired.delivered_iff.1 h.delivered⟩
  · rintro ⟨⟨hattempts, hattempts'⟩, hbodies⟩
    have hpaired := paired_of_le ha hb hattempts hattempts' hn
    have hrbits : a.rbit ≠ b.rbit := by
      rw [ha, hb]
      decide
    have hopposed : Opposed n a b := ⟨hrbits, hattempts, hattempts', by omega⟩
    exact {
      insists := fun s hs => (phased_of_reaches hopposed hs).insists hopposed ha
      gives_way := fun s t hs => (phased_of_reaches hopposed hs).gives_way hopposed hb
      yields := fun s hs => (phased_of_reaches hopposed hs).yields hopposed
      exclusive := fun s hs => (phased_of_reaches hopposed hs).exclusive hopposed
      unmixed := fun s hs => (hpaired.safe hs).2.2
      delivered := hpaired.delivered_iff.2 hbodies }

end

def onLineData : SecsMessage := ⟨⟨1, 2, 0, 0⟩, 7, []⟩

/-- Two messages without a body. -/
theorem stations_share_headers :
    SharesLine 3 ⟨true, 3⟩ ⟨false, 3⟩ [areYouThere] [onLineData] :=
  (stations_share_iff rfl rfl (List.cons_ne_nil _ _) (List.cons_ne_nil _ _) (by decide)).2
    ⟨⟨by decide, by decide⟩, by decide⟩

/-- A report that has a body arrives without it. -/
theorem stations_not_always_share :
    ¬ ∀ {n : ℕ} {a b : SecsOptions} {fs gs : List SecsMessage}, a.rbit = true → b.rbit = false →
      fs ≠ [] → gs ≠ [] → fs.length + 2 ≤ n → SharesLine n a b fs gs := by
  intro hall
  have hshares : SharesLine 5 ⟨true, 3⟩ ⟨false, 3⟩ [longReport] [areYouThere] :=
    hall rfl rfl (List.cons_ne_nil _ _) (List.cons_ne_nil _ _) (by decide)
  have hpaired : Paired 5 ⟨true, 3⟩ ⟨false, 3⟩ [longReport] :=
    paired_of_le rfl rfl (by decide) (by decide) (by decide)
  have hbodies := hpaired.delivered_iff.1 hshares.delivered
  have hempty := hbodies longReport List.mem_cons_self
  cases hempty

end ScOpen
