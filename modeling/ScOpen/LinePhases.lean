import ScOpen.SecsContention

/-!
# Phases of two stations on a line

While one of two stations has the R-bit, only one of them at a time sends a block. Between two blocks
each of them rests, is done, is about to send or has announced a message; the other states are those
of one block and of the answer to it.
-/

namespace ScOpen

open Dialogues Settling

/-! ## What a station is doing -/

/-- The station has begun to send a message and is not done with it. -/
def LineStation.IsSending (ms : List SecsMessage) (s : LineStation) : Prop :=
  s.results.length + s.unsent.length < ms.length

def LineStation.SendsBlock (s : LineStation) : Prop :=
  ∃ c next, s.job = some (.write .block c next)

/-- In the middle of sending its own message the station gives the line to the other one. -/
def LineStation.Yields (ms : List SecsMessage) (s : LineStation) : Prop :=
  s.IsSending ms ∧ ∃ next, s.job = some (.write .handshake EOT next)

/-- A station between two blocks, with what it has put on the line since. -/
inductive Free (n : ℕ) (o : SecsOptions) (ms : List SecsMessage) :
    LineStation → List LineByte → Prop
  | idle {s : LineStation} (hopts : s.opts = o)
      (hcount : s.results.length + s.unsent.length = ms.length) (hjob : s.job = none) :
      Free n o ms s []
  | finished {s : LineStation} {result : JobResult} (hopts : s.opts = o)
      (hcount : s.results.length + result.1.length + s.unsent.length = ms.length)
      (hjob : s.job = some (.done result)) : Free n o ms s []
  | starts {s : LineStation} {m : SecsMessage} {turns : ℕ} {received : List ReceivedMessage}
      (hopts : s.opts = o) (hcount : s.results.length + 1 + s.unsent.length = ms.length)
      (hjob : s.job = some (sending n o m turns received)) : Free n o ms s []
  | announced {s : LineStation} {m : SecsMessage} {turns : ℕ} {received : List ReceivedMessage}
      {w : LineProcess JobResult} (hopts : s.opts = o)
      (hcount : s.results.length + 1 + s.unsent.length = ms.length)
      (hw : sending n o m (turns + 1) received = .write .handshake ENQ w)
      (hjob : s.job = some w) : Free n o ms s [enq]

/-- The left station sends a block and the right one receives it; the events `el` and `er` lie before
them. -/
structure BlockPhase (n : ℕ) (a b : SecsOptions) (fs gs : List SecsMessage) (block : Bytes)
    (el er : List (Event LineByte)) (l' r' : LineStation) (s : Line LineStation LineByte) :
    Prop where
  balanced : Balanced el er s.toRight s.toLeft
  left : Follows LineStation.act s.left el l'
  right : Follows LineStation.act s.right er r'
  left_events : el <:+ .takes enq :: answered block
  yielding_events : a.rbit = false → el <:+ answered block
  right_events : er <:+ (exchange block).map .other
  goes_on : er ≠ []
  left_free : Free n a fs l' []
  right_free : Free n b gs r' []
  sends : l'.IsSending fs
  yields : r'.IsSending gs → b.rbit = false

/-- The states of two stations of which the left one has something to send. -/
inductive Phase (n : ℕ) (a b : SecsOptions) (fs gs : List SecsMessage) :
    Line LineStation LineByte → Prop
  | free {l r : LineStation} {p q : List LineByte} (hl : Free n a fs l p)
      (hr : Free n b gs r q) : Phase n a b fs gs ⟨l, r, p, q⟩
  | block {s : Line LineStation LineByte} {block : Bytes} {el er : List (Event LineByte)}
      {l' r' : LineStation} (h : BlockPhase n a b fs gs block el er l' r' s) : Phase n a b fs gs s
  | acknowledged {l r l' : LineStation} {q out : List LineByte} (hne : q ≠ [])
      (hl : Follows LineStation.act l (q.map .takes) l') (hq : a.rbit = false → enq ∉ q)
      (hfree : Free n a fs l' []) (hr : Free n b gs r out) :
      Phase n a b fs gs ⟨l, r, [], q ++ out⟩

/-- One of two stations has the R-bit, and both try to send. -/
structure Opposed (n : ℕ) (a b : SecsOptions) : Prop where
  rbits : a.rbit ≠ b.rbit
  left_attempts : a.attempts ≠ 0
  right_attempts : b.attempts ≠ 0
  turns : 1 < n

theorem Opposed.flip {n : ℕ} {a b : SecsOptions} (h : Opposed n a b) : Opposed n b a :=
  ⟨h.rbits.symm, h.right_attempts, h.left_attempts, h.turns⟩

theorem LineStation.work_job {s : LineStation} {p : LineProcess JobResult} (h : s.job = some p) :
    s.work p = s := by
  obtain ⟨opts, unsent, job, received, results, mixed⟩ := s
  obtain rfl : job = some p := h
  rfl

section

variable {n : ℕ} {a b : SecsOptions} {fs gs : List SecsMessage}

/-! ## Free stations -/

/-- Sending starts with `ENQ`, unless the turns of the loop are used up. -/
theorem sending_writes (hn : 0 < n) {o : SecsOptions} (hattempts : o.attempts ≠ 0) (m : SecsMessage)
    (turns : ℕ) (received : List ReceivedMessage) :
    sending n o m turns received = .spent ∨ ∃ k w, turns = k + 1 ∧
      sending n o m turns received = .write .handshake ENQ w := by
  cases turns with
  | zero => exact .inl rfl
  | succ turns =>
      obtain ⟨w, hw⟩ := sending_starts turns received m hn hattempts
      exact .inr ⟨turns, w, rfl, hw⟩

section

variable {o : SecsOptions} {ms : List SecsMessage} {s t : LineStation} {out : List LineByte}

/-- What a free station can do. -/
theorem Free.acts (hn : 0 < n) (hattempts : o.attempts ≠ 0) (h : Free n o ms s out) :
    s.act = .rest ∨ (∃ t, s.act = .move t ∧ out = [] ∧ Free n o ms t []) ∨
      (∃ t, s.act = .write enq t ∧ out = [] ∧ Free n o ms t [enq]) ∨
        ∃ next, s.act = .read next ∧ out = [enq] := by
  cases h with
  | idle _ _ hjob =>
      refine .inl ?_
      rw [LineStation.act, hjob]
  | @finished result hopts hcount hjob =>
      refine .inr (.inl ⟨s.finish result, ?_, rfl, .idle hopts ?_ rfl⟩)
      · rw [LineStation.act, hjob]
      · rw [← hcount]
        simp [LineStation.finish]
  | @starts m turns received hopts hcount hjob =>
      obtain hspent | ⟨k, w, rfl, hw⟩ := sending_writes hn hattempts m turns received
      · refine .inl ?_
        rw [LineStation.act, hjob, hspent]
      · refine .inr (.inr (.inl ⟨s.work w, ?_, rfl, .announced hopts hcount hw rfl⟩))
        rw [LineStation.act, hjob, hw]
        rfl
  | announced _ _ hw hjob =>
      obtain ⟨-, role, next, rfl⟩ := enquired_reads hn hattempts hw
      refine .inr (.inr (.inr ?_))
      rw [LineStation.act, hjob]
      exact ⟨_, rfl, rfl⟩

theorem Free.puts (hn : 0 < n) (hattempts : o.attempts ≠ 0) (h : Free n o ms s out)
    {put : List LineByte} (hdoes : Does LineStation.act s [] put t) :
    Free n o ms t (out ++ put) := by
  rcases h.acts hn hattempts with hrest | ⟨_, hact, rfl, hfree⟩ | ⟨_, hact, rfl, hfree⟩ |
    ⟨_, hact, -⟩
  · exact absurd hrest hdoes.not_rest
  · cases hdoes with
    | write h => cases h.symm.trans hact
    | move h =>
        cases h.symm.trans hact
        exact hfree
  · cases hdoes with
    | write h =>
        cases h.symm.trans hact
        exact hfree
    | move h => cases h.symm.trans hact
  · cases hdoes with
    | write h => cases h.symm.trans hact
    | move h => cases h.symm.trans hact

/-- A free station writes nothing but `ENQ`. -/
theorem Free.writes (hn : 0 < n) (hattempts : o.attempts ≠ 0) (h : Free n o ms s out)
    {b : LineByte} (hact : s.act = .write b t) : b = enq := by
  rcases h.acts hn hattempts with h | ⟨_, h, -⟩ | ⟨_, h, -⟩ | ⟨_, h, -⟩
  · cases h.symm.trans hact
  · cases h.symm.trans hact
  · cases h.symm.trans hact
    rfl
  · cases h.symm.trans hact

/-- Only a station that has announced a message reads. -/
theorem Free.reads (hn : 0 < n) (hattempts : o.attempts ≠ 0) (h : Free n o ms s out)
    {next : LineByte → LineStation} (hact : s.act = .read next) : out = [enq] := by
  rcases h.acts hn hattempts with h | ⟨_, h, -⟩ | ⟨_, h, -⟩ | ⟨_, -, hout⟩
  · cases h.symm.trans hact
  · cases h.symm.trans hact
  · cases h.symm.trans hact
  · exact hout

theorem sent_free (hopts : s.opts = o)
    (hcount : s.results.length + 1 + s.unsent.length = ms.length)
    (received : List ReceivedMessage) :
    Free n o ms (s.work (.done ([0], received))) [] ∧
      (s.work (.done ([0], received))).IsSending ms := by
  refine ⟨@Free.finished n o ms _ ([0], received) hopts hcount rfl, ?_⟩
  change s.results.length + s.unsent.length < ms.length
  omega

/-- A station that has announced a message waits for `EOT` and sends the block. -/
theorem Free.answered (hn : 0 < n) (hattempts : o.attempts ≠ 0) (h : Free n o ms s [enq]) :
    ∃ (m : SecsMessage) (l : LineStation), Follows LineStation.act s (answered (m.block o.rbit)) l ∧
      Free n o ms l [] ∧ l.IsSending ms := by
  cases h with
  | @announced m turns received w hopts hcount hw hjob =>
      obtain ⟨hgoes, -⟩ := enquired_reads hn hattempts hw
      have hfollows := s.follows hgoes
      rw [LineStation.work_job hjob] at hfollows
      exact ⟨m, _, hfollows, sent_free hopts hcount received⟩

/-- With the R-bit it passes over the `ENQ` of the other station. -/
theorem Free.insists (hn : 1 < n) (hattempts : o.attempts ≠ 0) (hrbit : o.rbit = true)
    (h : Free n o ms s [enq]) :
    ∃ (m : SecsMessage) (l : LineStation),
      Follows LineStation.act s (.takes enq :: ScOpen.answered (m.block o.rbit)) l ∧
        Free n o ms l [] ∧ l.IsSending ms := by
  cases h with
  | @announced m turns received w hopts hcount hw hjob =>
      have hgoes := sending_insists turns received m hn hattempts hrbit
      rw [hw] at hgoes
      cases hgoes with
      | write hgoes =>
          have hfollows := s.follows hgoes
          rw [LineStation.work_job hjob] at hfollows
          exact ⟨m, _, hfollows, sent_free hopts hcount received⟩

/-- Without the R-bit it receives the message of the other station. -/
theorem Free.yields (hn : 0 < n) (hattempts : o.attempts ≠ 0) (hrbit : o.rbit = false)
    (h : Free n o ms s [enq]) (m' : SecsMessage) (rbit : Bool) :
    ∃ l : LineStation, Follows LineStation.act s
        (.takes enq :: (ScOpen.answered (m'.block rbit)).map .other) l ∧ Free n o ms l [] := by
  cases h with
  | @announced m turns received w hopts hcount hw hjob =>
      have hgoes := sending_yields turns received m hn hattempts hrbit m' rbit
      rw [hw] at hgoes
      cases hgoes with
      | write hgoes =>
          have hfollows := s.follows hgoes
          rw [LineStation.work_job hjob] at hfollows
          exact ⟨_, hfollows, .starts hopts hcount rfl⟩

theorem Free.sends (h : Free n o ms s out) (hjob : s.job = none) {m : SecsMessage}
    {unsent : List SecsMessage} (hunsent : s.unsent = m :: unsent) :
    Free n o ms (({ s with unsent := unsent } : LineStation).work (sendJob n s.opts m)) out := by
  cases h with
  | idle hopts hcount _ =>
      have hjob' : (({ s with unsent := unsent } : LineStation).work (sendJob n s.opts m)).job =
          some (sending n o m n []) := by
        rw [← hopts, ← sendJob_eq]
        rfl
      refine .starts hopts ?_ hjob'
      rw [hunsent] at hcount
      simp only [LineStation.work, List.length_cons] at hcount ⊢
      omega
  | finished _ _ h => cases h.symm.trans hjob
  | starts _ _ h => cases h.symm.trans hjob
  | announced _ _ _ h => cases h.symm.trans hjob

/-- A station that has nothing to do receives what the other one has announced. -/
theorem Free.receives (hn : 0 < n) (h : Free n o ms s out) (hjob : s.job = none) (m : SecsMessage)
    (rbit : Bool) : out = [] ∧ ∃ l : LineStation, Follows LineStation.act (s.work (recvJob n))
        (.takes enq :: (ScOpen.answered (m.block rbit)).map .other) l ∧
      Free n o ms l [] ∧ ¬ l.IsSending ms := by
  cases h with
  | idle hopts hcount _ =>
      refine ⟨rfl, _, s.follows (recvJob_goes m rbit hn),
        @Free.finished n o ms _ ([], [m.arrives rbit]) hopts hcount rfl, ?_⟩
      exact Nat.not_lt_of_le hcount.ge
  | finished _ _ h => cases h.symm.trans hjob
  | starts _ _ h => cases h.symm.trans hjob
  | announced _ _ _ h => cases h.symm.trans hjob

end

/-! ## Steps -/

def Phased (n : ℕ) (a b : SecsOptions) (fs gs : List SecsMessage)
    (s : Line LineStation LineByte) : Prop :=
  Phase n a b fs gs s ∨ Phase n b a gs fs s.flip

theorem enq_not_answered (block : Bytes) : Event.takes enq ∉ answered block := by
  have heot : (LineRole.handshake, ENQ) ≠ (LineRole.handshake, EOT) := by decide
  have hack : (LineRole.handshake, ENQ) ≠ (LineRole.handshake, ACK) := by decide
  simp [answered, enq, heot, hack]

/-- The exchange of a block ends with `ACK`. -/
theorem acknowledges {block : Bytes} {er : List (Event LineByte)}
    (her : er <:+ (exchange block).map .other) (hne : er ≠ []) :
    Event.puts (LineRole.handshake, ACK) ∈ er := by
  have hends : (exchange block).map Event.other =
      (.takes enq :: .puts (.handshake, EOT) ::
        ((blockFrame block).map fun c => Event.puts (LineRole.block, c)).map .other) ++
      [.puts (LineRole.handshake, ACK)] := by
    simp [exchange, ScOpen.answered, enquiry, Event.other, enq]
  rw [hends, List.suffix_concat_iff] at her
  obtain ⟨init, rfl, -⟩ := her.resolve_left hne
  exact List.mem_append_right _ List.mem_cons_self

namespace BlockPhase

variable {block : Bytes} {el er : List (Event LineByte)} {l' r' : LineStation}
  {s t : Line LineStation LineByte}

/-- The left station has announced the block, and the right one is to take `ENQ`. -/
theorem announced {l r : LineStation} (hl : Follows LineStation.act l (answered block) l')
    (hr : Follows LineStation.act r (.takes enq :: (answered block).map .other) r')
    (hfree : Free n a fs l' []) (hfree' : Free n b gs r' []) (hsends : l'.IsSending fs)
    (hyields : r'.IsSending gs → b.rbit = false) :
    BlockPhase n a b fs gs block (answered block)
      (.takes enq :: (answered block).map .other) l' r' ⟨l, r, [enq], []⟩ where
  balanced := .ahead _ [enq]
  left := hl
  right := hr
  left_events := List.suffix_cons _ _
  yielding_events := fun _ => List.suffix_rfl
  right_events := List.suffix_rfl
  goes_on := List.cons_ne_nil _ _
  left_free := hfree
  right_free := hfree'
  sends := hsends
  yields := hyields

/-- The station that sends the block is not done with it before the other one is. -/
theorem left_goes_on (h : BlockPhase n a b fs gs block el er l' r' s) : el ≠ [] := by
  rintro rfl
  have hack := acknowledges h.right_events h.goes_on
  rw [h.balanced.nil_left] at hack
  obtain ⟨b, -, hb⟩ := List.mem_map.1 hack
  cases hb

/-- A step of the station that sends the block. -/
theorem acts_left (h : BlockPhase n a b fs gs block el er l' r' s)
    (hacts : Acts LineStation.act s t) : Phase n a b fs gs t := by
  obtain ⟨e, el, rfl⟩ := List.exists_cons_of_ne_nil h.left_goes_on
  obtain ⟨hleft, hbalanced⟩ := h.balanced.acts h.left hacts
  obtain ⟨-, -, -, -, -, hsame⟩ := hacts
  have htail := List.suffix_cons e el
  refine .block { h with
    balanced := hbalanced
    left := hleft
    right := hsame ▸ h.right
    left_events := htail.trans h.left_events
    yielding_events := fun hrbit => htail.trans (h.yielding_events hrbit) }

/-- A step of the station that receives it. -/
theorem acts_right (h : BlockPhase n a b fs gs block el er l' r' s)
    (hacts : Acts LineStation.act s.flip t.flip) : Phase n a b fs gs t := by
  have hgoes := h.left_goes_on
  obtain ⟨e, er, rfl⟩ := List.exists_cons_of_ne_nil h.goes_on
  have hflip : Balanced (e :: er) el s.flip.toRight s.flip.toLeft := h.balanced.flip
  obtain ⟨hright, hbalanced⟩ := hflip.acts h.right hacts
  obtain ⟨-, -, -, -, -, hsame⟩ := hacts
  have hleft : Follows LineStation.act t.left el l' := (show t.left = s.left from hsame) ▸ h.left
  cases er with
  | cons e' er =>
      exact .block { h with
        balanced := hbalanced.flip
        left := hleft
        right := hright
        right_events := (List.suffix_cons e _).trans h.right_events
        goes_on := List.cons_ne_nil _ _ }
  | nil =>
      -- the block has been received, and only the answer is still on the line
      obtain ⟨l, r, p, q⟩ := t
      have htakes : el = q.map .takes := hbalanced.nil_left
      subst htakes
      have hempty : p = [] := hbalanced.flip.empty_line
      subst hempty
      cases hright
      rw [← List.append_nil q]
      refine .acknowledged ?_ hleft ?_ h.left_free h.right_free
      · rintro rfl
        exact hgoes rfl
      · intro hrbit hq
        exact enq_not_answered block
          ((h.yielding_events hrbit).mem (List.mem_map_of_mem hq))

end BlockPhase

theorem act_of_takes {s t : LineStation} {c : LineByte} {taken put : List LineByte}
    (h : Does LineStation.act s (c :: taken) put t) :
    ∃ next, s.act = .read next ∧ taken = [] ∧ put = [] := by
  cases h with
  | read hact => exact ⟨_, hact, rfl, rfl⟩

/-- Both stations have announced a message, and the left one notices it first. -/
theorem Phase.contention (hopposed : Opposed n a b) {l r t : LineStation}
    (hl : Free n a fs l [enq]) (hr : Free n b gs r [enq])
    (hdoes : Does LineStation.act l [enq] [] t) :
    Phased n a b fs gs ⟨t, r, [enq], []⟩ := by
  have hn := Nat.lt_of_succ_lt hopposed.turns
  cases ha : a.rbit with
  | true =>
      have hb : b.rbit = false := by
        have hne := hopposed.rbits
        rw [ha] at hne
        exact (Bool.eq_false_or_eq_true b.rbit).resolve_left fun h => hne h.symm
      obtain ⟨m, l', hfollows, hfree, hsends⟩ := hl.insists hopposed.turns hopposed.left_attempts ha
      obtain ⟨r', hfollows', hfree'⟩ := hr.yields hn hopposed.right_attempts hb m a.rbit
      obtain ⟨_, h, -⟩ | ⟨_, _, h, h', -, hrest⟩ := hfollows.does hdoes
      · cases h
      cases h
      cases h'
      exact .inl (.block (.announced (hrest rfl) hfollows' hfree hfree' hsends fun _ => hb))
  | false =>
      have hb : b.rbit = true := by
        have hne := hopposed.rbits
        rw [ha] at hne
        exact (Bool.eq_false_or_eq_true b.rbit).resolve_right fun h => hne h.symm
      obtain ⟨m, r', hfollows', hfree', hsends⟩ :=
        hr.insists hopposed.turns hopposed.right_attempts hb
      obtain ⟨l', hfollows, hfree⟩ := hl.yields hn hopposed.left_attempts ha m b.rbit
      obtain ⟨_, h, -⟩ | ⟨_, _, h, h', -, hrest⟩ := hfollows.does hdoes
      · cases h
      cases h
      cases h'
      have hblock : BlockPhase n b a gs fs (m.block b.rbit) _ _ r' l' ⟨r, t, [], [enq]⟩ := {
        balanced := .behind _ [enq]
        left := hfollows'
        right := hrest rfl
        left_events := List.suffix_rfl
        yielding_events := fun h => absurd (hb.symm.trans h) (by decide)
        right_events := List.suffix_cons _ _
        goes_on := by simp
        left_free := hfree'
        right_free := hfree
        sends := hsends
        yields := fun _ => ha }
      exact .inr (.block hblock)

theorem Phase.acts_left (hopposed : Opposed n a b) {s t : Line LineStation LineByte}
    (h : Phase n a b fs gs s) (hacts : Acts LineStation.act s t) : Phased n a b fs gs t := by
  have hn := Nat.lt_of_succ_lt hopposed.turns
  cases h with
  | block h => exact .inl (h.acts_left hacts)
  | @free l r p q hl hr =>
      obtain ⟨taken, put, hdoes, hleft, hright, hsame⟩ := hacts
      obtain ⟨l₁, r₁, p₁, q₁⟩ := t
      obtain rfl : r₁ = r := hsame
      obtain rfl : p₁ = p ++ put := hright
      cases taken with
      | nil =>
          obtain rfl : q = q₁ := hleft
          exact .inl (.free (hl.puts hn hopposed.left_attempts hdoes) hr)
      | cons c taken =>
          obtain ⟨next, hact, rfl, rfl⟩ := act_of_takes hdoes
          obtain rfl : q = c :: q₁ := hleft
          obtain rfl := hl.reads hn hopposed.left_attempts hact
          cases hr with
          | announced hopts hcount hw hjob =>
              exact Phase.contention hopposed hl (.announced hopts hcount hw hjob) hdoes
  | @acknowledged l r l' q out hne hl hq hfree hr =>
      obtain ⟨b, q, rfl⟩ := List.exists_cons_of_ne_nil hne
      obtain ⟨taken, put, hdoes, hleft, hright, hsame⟩ := hacts
      obtain ⟨l₁, r₁, p₁, q₁⟩ := t
      obtain rfl : r₁ = r := hsame
      obtain rfl : p₁ = put := hright
      obtain ⟨_, h, -⟩ | ⟨_, c, h, rfl, rfl, hrest⟩ := hl.does hdoes
      · cases h
      cases h
      obtain ⟨rfl, rfl⟩ : b = c ∧ q ++ out = q₁ := List.cons.inj hleft
      cases q with
      | nil =>
          cases hrest rfl
          exact .inl (.free hfree hr)
      | cons c q =>
          refine .inl (.acknowledged (List.cons_ne_nil _ _) (hrest rfl) ?_ hfree hr)
          exact fun hrbit hmem => hq hrbit (List.mem_cons_of_mem _ hmem)

theorem Phase.acts_right (hopposed : Opposed n a b) {s t : Line LineStation LineByte}
    (h : Phase n a b fs gs s) (hacts : Acts LineStation.act s.flip t.flip) :
    Phased n a b fs gs t := by
  have hn := Nat.lt_of_succ_lt hopposed.turns
  cases h with
  | block h => exact .inl (h.acts_right hacts)
  | free hl hr =>
      have hflip : Phase n b a gs fs _ := .free hr hl
      exact (hflip.acts_left hopposed.flip hacts).symm
  | @acknowledged l r l' q out hne hl hq hfree hr =>
      obtain ⟨taken, put, hdoes, hright, hleft, hsame⟩ := hacts
      obtain ⟨l₁, r₁, p₁, q₁⟩ := t
      obtain rfl : l₁ = l := hsame
      obtain rfl : q₁ = q ++ out ++ put := hleft
      obtain ⟨rfl, rfl⟩ : taken = [] ∧ p₁ = [] := List.append_eq_nil_iff.1 hright.symm
      rw [List.append_assoc]
      exact .inl (.acknowledged hne hl hq hfree (hr.puts hn hopposed.right_attempts hdoes))

theorem Phase.chooses_left (hopposed : Opposed n a b) {s t : Line LineStation LineByte}
    (h : Phase n a b fs gs s)
    (hchooses : Dialogues.Chooses LineStation.act (LineStation.Chooses n) s t) :
    Phased n a b fs gs t := by
  have hn := Nat.lt_of_succ_lt hopposed.turns
  cases h with
  | block h =>
      obtain ⟨e, el, rfl⟩ := List.exists_cons_of_ne_nil h.left_goes_on
      exact absurd hchooses.1 h.left.not_rest
  | acknowledged hne hl _ _ _ =>
      obtain ⟨b, q, rfl⟩ := List.exists_cons_of_ne_nil hne
      exact absurd hchooses.1 hl.not_rest
  | @free l r p q hl hr =>
      obtain ⟨hjob, ⟨m, unsent, hunsent, rfl⟩ | ⟨hq, rfl⟩⟩ := leftChoice_cases hchooses
      · exact .inl (.free (hl.sends hjob hunsent) hr)
      · cases hr with
        | idle => exact absurd rfl hq
        | finished => exact absurd rfl hq
        | starts => exact absurd rfl hq
        | announced hopts hcount hw hr =>
            have hannounced : Free n b gs r [enq] := .announced hopts hcount hw hr
            obtain ⟨m, r', hfollows', hfree', hsends⟩ :=
              hannounced.answered hn hopposed.right_attempts
            obtain ⟨rfl, l', hfollows, hfree, hnot⟩ := hl.receives hn hjob m b.rbit
            exact .inr (.block (.announced hfollows' hfollows hfree' hfree hsends
              fun h => absurd h hnot))

theorem Phase.chooses_right (hopposed : Opposed n a b) {s t : Line LineStation LineByte}
    (h : Phase n a b fs gs s)
    (hchooses : Dialogues.Chooses LineStation.act (LineStation.Chooses n) s.flip t.flip) :
    Phased n a b fs gs t := by
  cases h with
  | block h =>
      obtain ⟨e, er, rfl⟩ := List.exists_cons_of_ne_nil h.goes_on
      exact absurd hchooses.1 h.right.not_rest
  | free hl hr =>
      have hflip : Phase n b a gs fs _ := .free hr hl
      exact (hflip.chooses_left hopposed.flip hchooses).symm
  | acknowledged hne hl hq hfree hr =>
      obtain ⟨hjob, ⟨m, unsent, hunsent, rfl⟩ | ⟨hp, -⟩⟩ := rightChoice_cases hchooses
      · exact .inl (.acknowledged hne hl hq hfree (hr.sends hjob hunsent))
      · exact absurd rfl hp

/-- Every step leads from one phase to the next. -/
theorem Phased.step (hopposed : Opposed n a b) {s t : Line LineStation LineByte}
    (h : Phased n a b fs gs s) (hstep : LineStep n s t) : Phased n a b fs gs t := by
  rcases h with h | h
  · rcases hstep with (hstep | hstep) | (hstep | hstep)
    · exact h.acts_left hopposed hstep
    · exact h.acts_right hopposed hstep
    · exact h.chooses_left hopposed hstep
    · exact h.chooses_right hopposed hstep
  · rcases hstep with (hstep | hstep) | (hstep | hstep)
    · have hstep' : Acts LineStation.act s.flip.flip t.flip.flip := hstep
      exact (h.acts_right hopposed.flip hstep').symm
    · exact (h.acts_left hopposed.flip hstep).symm
    · have hstep' : Dialogues.Chooses LineStation.act (LineStation.Chooses n) s.flip.flip
          t.flip.flip := hstep
      exact (h.chooses_right hopposed.flip hstep').symm
    · exact (h.chooses_left hopposed.flip hstep).symm

/-! ## What is never seen -/

theorem LineStation.act_write {s : LineStation} {role : LineRole} {c : UInt8}
    {next : LineProcess JobResult} (h : s.job = some (.write role c next)) :
    s.act = .write (role, c) (s.work next) := by
  rw [LineStation.act, h]

/-- What a station writes is what comes next in what it follows. -/
theorem follows_write {s l : LineStation} {events : List (Event LineByte)} {role : LineRole}
    {c : UInt8} {next : LineProcess JobResult} (h : Follows LineStation.act s events l)
    (hne : events ≠ []) (hjob : s.job = some (.write role c next)) :
    Event.puts (role, c) ∈ events := by
  obtain ⟨e, events, rfl⟩ := List.exists_cons_of_ne_nil hne
  obtain ⟨b, rfl, -, hb, -⟩ | ⟨b, b', -, h', -⟩ :=
    h.does (.write (LineStation.act_write hjob))
  · cases hb
    exact List.mem_cons_self
  · cases h'

theorem puts_answered {block : Bytes} {role : LineRole} {c : UInt8}
    (h : Event.puts (role, c) ∈ Event.takes enq :: answered block) : role = .block := by
  simp only [ScOpen.answered, enq, List.cons_append, List.mem_cons, reduceCtorEq, List.mem_append,
    List.mem_map, Event.puts.injEq, Prod.mk.injEq, List.not_mem_nil, or_false, false_or] at h
  obtain ⟨_, -, rfl, -⟩ := h
  rfl

theorem puts_exchange {block : Bytes} {role : LineRole} {c : UInt8}
    (h : Event.puts (role, c) ∈ (exchange block).map .other) : role = .handshake := by
  obtain ⟨e, he, hother⟩ := List.mem_map.1 h
  cases e with
  | puts => cases hother
  | takes b =>
      cases hother
      simp only [exchange, enquiry, ScOpen.answered, List.cons_append, List.mem_cons, reduceCtorEq,
        List.mem_append, List.mem_map, Event.takes.injEq, Prod.mk.injEq, List.not_mem_nil, or_false,
        false_or, and_false, exists_false] at he
      obtain ⟨rfl, -⟩ | ⟨rfl, -⟩ := he
      · rfl
      · rfl

/-- A step on the line leaves the numbers of the messages as they are. -/
theorem follows_counts {s l : LineStation} {events : List (Event LineByte)}
    (h : Follows LineStation.act s events l) :
    s.results = l.results ∧ s.unsent = l.unsent := by
  induction h with
  | refl => exact ⟨rfl, rfl⟩
  | puts h _ ih =>
      cases h with
      | write h =>
          unfold LineStation.act at h
          split at h <;> cases h
          exact ih
  | takes h _ ih =>
      cases h with
      | read h =>
          unfold LineStation.act at h
          split at h <;> cases h
          exact ih

theorem follows_isSending {s l : LineStation} {events : List (Event LineByte)}
    {ms : List SecsMessage} (h : Follows LineStation.act s events l) :
    s.IsSending ms ↔ l.IsSending ms := by
  obtain ⟨hresults, hunsent⟩ := follows_counts h
  rw [LineStation.IsSending, LineStation.IsSending, hresults, hunsent]

section

variable {s : Line LineStation LineByte}

theorem Free.not_block {o : SecsOptions} {ms : List SecsMessage} {t : LineStation}
    {out : List LineByte} (hn : 0 < n) (hattempts : o.attempts ≠ 0) (h : Free n o ms t out) :
    ¬ t.SendsBlock := by
  rintro ⟨c, next, hjob⟩
  cases h.writes hn hattempts (LineStation.act_write hjob)

theorem Free.not_yields {o : SecsOptions} {ms : List SecsMessage} {t : LineStation}
    {out : List LineByte} (hn : 0 < n) (hattempts : o.attempts ≠ 0) (h : Free n o ms t out) :
    ¬ t.Yields ms := by
  rintro ⟨-, next, hjob⟩
  cases h.writes hn hattempts (LineStation.act_write hjob)

/-- The right station sends no bytes of a block. -/
theorem Phase.right_not_block (hopposed : Opposed n a b) (h : Phase n a b fs gs s) :
    ¬ s.right.SendsBlock := by
  have hn := Nat.lt_of_succ_lt hopposed.turns
  cases h with
  | free _ hr => exact hr.not_block hn hopposed.right_attempts
  | acknowledged _ _ _ _ hr => exact hr.not_block hn hopposed.right_attempts
  | block h =>
      rintro ⟨c, next, hjob⟩
      have hputs := h.right_events.mem (follows_write h.right h.goes_on hjob)
      cases puts_exchange hputs

/-- The left station does not yield. -/
theorem Phase.left_not_yields (hopposed : Opposed n a b) (h : Phase n a b fs gs s) :
    ¬ s.left.Yields fs := by
  have hn := Nat.lt_of_succ_lt hopposed.turns
  cases h with
  | free hl _ => exact hl.not_yields hn hopposed.left_attempts
  | acknowledged hne hl _ _ _ =>
      rintro ⟨-, next, hjob⟩
      have hputs := follows_write hl (fun h => hne (List.map_eq_nil_iff.1 h)) hjob
      obtain ⟨_, -, h⟩ := List.mem_map.1 hputs
      cases h
  | block h =>
      rintro ⟨-, next, hjob⟩
      have hputs := h.left_events.mem (follows_write h.left h.left_goes_on hjob)
      cases puts_answered hputs

/-- The right station yields to a message of the left one, and only without the R-bit. -/
theorem Phase.right_yields (hopposed : Opposed n a b) (h : Phase n a b fs gs s)
    (hyields : s.right.Yields gs) : b.rbit = false ∧ s.left.IsSending fs := by
  have hn := Nat.lt_of_succ_lt hopposed.turns
  cases h with
  | free _ hr => exact absurd hyields (hr.not_yields hn hopposed.right_attempts)
  | acknowledged _ _ _ _ hr => exact absurd hyields (hr.not_yields hn hopposed.right_attempts)
  | block h =>
      exact ⟨h.yields ((follows_isSending h.right).1 hyields.1),
        (follows_isSending h.left).2 h.sends⟩

theorem LineStation.job_of_act {t t' : LineStation} {role : LineRole} {c : UInt8}
    (h : t.act = .write (role, c) t') : ∃ next, t.job = some (.write role c next) := by
  cases hjob : t.job with
  | none =>
      rw [LineStation.act, hjob] at h
      cases h
  | some p =>
      rw [LineStation.act, hjob] at h
      cases p with
      | write role c next =>
          cases h
          exact ⟨next, rfl⟩
      | done => cases h
      | read => cases h
      | spent => cases h

theorem LineStation.job_of_read {t : LineStation} {k : LineByte → LineStation}
    (h : t.act = .read k) : ∃ role next, t.job = some (.read role next) ∧
      k = fun b => { t with
        job := some (next (.byte b.2))
        mixed := t.mixed || b.1 != role } := by
  cases hjob : t.job with
  | none =>
      rw [LineStation.act, hjob] at h
      cases h
  | some p =>
      rw [LineStation.act, hjob] at h
      cases p with
      | read role next =>
          cases h
          exact ⟨role, next, rfl, rfl⟩
      | done => cases h
      | write => cases h
      | spent => cases h

/-- A station that is to answer `ENQ` with `EOT` does so. -/
theorem follows_enq {t l : LineStation} {events : List (Event LineByte)} {role : LineRole}
    {next : LineRead → LineProcess JobResult}
    (h : Follows LineStation.act t (.takes enq :: .puts (.handshake, EOT) :: events) l)
    (hjob : t.job = some (.read role next)) :
    ∃ p, next (.byte ENQ) = .write .handshake EOT p := by
  cases h with
  | takes h hrest =>
      cases h with
      | read hact =>
          rw [LineStation.act, hjob] at hact
          cases hact
          cases hrest with
          | puts h' _ =>
              cases h' with
              | write h' =>
                  obtain ⟨p, hp⟩ := LineStation.job_of_act h'
                  exact ⟨p, Option.some.inj hp⟩

/-- Without the R-bit the left station gives way when it finds `ENQ` on the line. -/
theorem Phase.left_gives_way (hopposed : Opposed n a b) (h : Phase n a b fs gs s)
    (ha : a.rbit = false) {q : List LineByte} (hq : s.toLeft = enq :: q) {role : LineRole}
    {next : LineRead → LineProcess JobResult} (hjob : s.left.job = some (.read role next)) :
    ∃ p, next (.byte ENQ) = .write .handshake EOT p := by
  have hn := Nat.lt_of_succ_lt hopposed.turns
  cases h with
  | block h =>
      have hbalanced := h.balanced
      rw [hq] at hbalanced
      obtain ⟨el', rfl⟩ := hbalanced.left_takes
      exact absurd ((h.yielding_events ha).mem List.mem_cons_self) (enq_not_answered _)
  | acknowledged hne _ hmem _ _ =>
      obtain ⟨c, q', rfl⟩ := List.exists_cons_of_ne_nil hne
      obtain ⟨rfl, -⟩ := List.cons.inj hq
      exact absurd List.mem_cons_self (hmem ha)
  | @free l r p q hl hr =>
      have hact : ∃ k, l.act = .read k := by
        rw [LineStation.act, show l.job = _ from hjob]
        exact ⟨_, rfl⟩
      obtain ⟨k, hk⟩ := hact
      obtain rfl := hl.reads hn hopposed.left_attempts hk
      obtain ⟨l', hfollows, -⟩ := hl.yields hn hopposed.left_attempts ha ⟨⟨0, 0, 0, 0⟩, 0, []⟩ true
      exact follows_enq hfollows hjob

theorem enq_suffix {block : Bytes} {er : List (Event LineByte)}
    (h : .takes enq :: er <:+ (exchange block).map .other) : er = (answered block).map .other := by
  have hnot : Event.takes enq ∉ (answered block).map .other := by
    intro hmem
    obtain ⟨e, he, hother⟩ := List.mem_map.1 hmem
    cases e with
    | takes => cases hother
    | puts b =>
        cases hother
        cases puts_answered (List.mem_cons_of_mem _ he)
  obtain heq | hsuffix := List.suffix_cons_iff.1 h
  · exact (List.cons.inj heq).2
  · exact absurd (hsuffix.mem List.mem_cons_self) hnot

theorem Phase.right_gives_way (hopposed : Opposed n a b) (h : Phase n a b fs gs s)
    (hb : b.rbit = false) {p : List LineByte} (hp : s.toRight = enq :: p) {role : LineRole}
    {next : LineRead → LineProcess JobResult} (hjob : s.right.job = some (.read role next)) :
    ∃ p, next (.byte ENQ) = .write .handshake EOT p := by
  cases h with
  | free hl hr =>
      have hflip : Phase n b a gs fs _ := .free hr hl
      exact hflip.left_gives_way hopposed.flip hb hp hjob
  | acknowledged => cases hp
  | block h =>
      have hbalanced := h.balanced.flip
      rw [hp] at hbalanced
      obtain ⟨er', rfl⟩ := hbalanced.left_takes
      have hright := h.right
      rw [enq_suffix h.right_events] at hright
      exact follows_enq hright hjob

end

theorem phased_of_reaches (hopposed : Opposed n a b) {s : Line LineStation LineByte}
    (h : Relation.ReflTransGen (LineStep n) (lineStart a b fs gs) s) : Phased n a b fs gs s := by
  induction h with
  | refl => exact .inl (.free (.idle rfl (Nat.zero_add _) rfl) (.idle rfl (Nat.zero_add _) rfl))
  | tail _ hstep ih => exact ih.step hopposed hstep

end

end ScOpen
