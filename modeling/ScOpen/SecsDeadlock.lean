import ScOpen.SecsContention

/-!
# Stations that cannot share a line

When both stations have the R-bit, or neither has it, and both start to send at once, they wait for
each other: with the R-bit both wait for `EOT`, and without it both yield and take the other one's
`EOT` for the size of a block.
-/

namespace ScOpen

open Dialogues Settling

section

variable {n : ℕ}

/-- A station whose job waits for a byte chooses nothing. -/
theorem final_of_reads {l r : LineStation} {role role' : LineRole}
    {next next' : LineRead → LineProcess JobResult} (hl : l.job = some (.read role next))
    (hr : r.job = some (.read role' next')) : Final (LineStep n) ⟨l, r, [], []⟩ := by
  have hreads : ∀ {s : LineStation} {role next}, s.job = some (.read role next) →
      ∃ k, s.act = .read k := fun {s role next} h => by
    unfold LineStation.act
    rw [h]
    exact ⟨_, rfl⟩
  obtain ⟨k, hk⟩ := hreads hl
  obtain ⟨k', hk'⟩ := hreads hr
  intro t ht
  rcases ht with hquiet | hchoice | hchoice
  · exact final_of_waits (.inr ⟨rfl, k, hk⟩) (.inr ⟨rfl, k', hk'⟩) t hquiet
  · cases hk.symm.trans hchoice.1
  · cases hk'.symm.trans hchoice.1

theorem reaches_of_leads {s t : Line LineStation LineByte} (h : Leads LineQuiet s t) :
    Relation.ReflTransGen (LineStep n) s t := by
  obtain ⟨k, hk⟩ := h
  exact Relation.ReflTransGen.mono (fun _ _ hstep => Or.inl hstep) _ _ hk.reflTransGen

/-- Both stations have put `ENQ` on the line. -/
theorem reaches_enquired (hn : 0 < n) {a b : SecsOptions} (hattempts : a.attempts ≠ 0)
    (hattempts' : b.attempts ≠ 0) (m m' : SecsMessage) (fs gs : List SecsMessage) :
    ∃ turns w w', sending n a m (turns + 1) [] = .write .handshake ENQ w ∧
      sending n b m' (turns + 1) [] = .write .handshake ENQ w' ∧
      Relation.ReflTransGen (LineStep n) (lineStart a b (m :: fs) (m' :: gs))
        ⟨(LineStation.resting a fs [] []).work w, (LineStation.resting b gs [] []).work w',
          [enq], [enq]⟩ := by
  obtain ⟨turns, w, hturns, hjob, hw⟩ := sendJob_starts hn hattempts m
  obtain ⟨turns', w', hturns', hjob', hw'⟩ := sendJob_starts hn hattempts' m'
  obtain rfl : turns = turns' := by omega
  refine ⟨turns, w, w', hw, hw', ?_⟩
  have hleft : LineStep n (lineStart a b (m :: fs) (m' :: gs)) _ :=
    choice_left rfl (.send rfl rfl)
  have hright : LineStep n ⟨(LineStation.resting a fs [] []).work (sendJob n a m),
      .resting b (m' :: gs) [] [], [], []⟩ _ := choice_right rfl (.send rfl rfl)
  have hput := leads_put (hjob.trans hw) (.resting a fs [] [])
    ((LineStation.resting b gs [] []).work (sendJob n b m')) [] []
  have hput' := leads_put_right (hjob'.trans hw') ((LineStation.resting a fs [] []).work w)
    (.resting b gs [] []) [enq] []
  exact .head hleft (.head hright (reaches_of_leads (hput.trans hput')))

/-- With the R-bit a station goes on waiting when the other one announces a message, too. -/
theorem enquired_waits {turns : ℕ} {opts : SecsOptions} (hn : 1 < n)
    (hattempts : opts.attempts ≠ 0) (hrbit : opts.rbit = true) {m : SecsMessage}
    {w : LineProcess JobResult}
    (hw : sending n opts m (turns + 1) [] = .write .handshake ENQ w) :
    Process.Goes LineRead.byte w (.takes enq :: answered (m.block opts.rbit))
      (.done ([0], [])) := by
  have hinsists := sending_insists turns [] m hn hattempts hrbit
  rw [hw] at hinsists
  cases hinsists with
  | write hinsists => exact hinsists

/-- `EOT` is read where the size of a block should be, and what follows is dropped. -/
theorem recvSecs_eot (k : ℕ) : ∃ next next',
    OnLine.recvSecs (k + 2) true = .write .handshake EOT (.read .block next) ∧
      next (.byte EOT) = .read .block next' :=
  ⟨_, _, rfl, rfl⟩

def Stuck (s : Line LineStation LineByte) (n : ℕ) : Prop :=
  Final (LineStep n) s ∧ s.left.job.isSome = true ∧ s.right.job.isSome = true

theorem stuck_insisting (hn : 1 < n) {a b : SecsOptions} (ha : a.rbit = true) (hb : b.rbit = true)
    (hattempts : a.attempts ≠ 0) (hattempts' : b.attempts ≠ 0) (m m' : SecsMessage)
    (fs gs : List SecsMessage) :
    ∃ s, Relation.ReflTransGen (LineStep n) (lineStart a b (m :: fs) (m' :: gs)) s ∧
      Stuck s n := by
  obtain ⟨turns, w, w', hw, hw', hreaches⟩ :=
    reaches_enquired (Nat.lt_of_succ_lt hn) hattempts hattempts' m m' fs gs
  obtain ⟨q₁, hq₁, htake⟩ := leads_take (enquired_waits hn hattempts' hb hw')
    ((LineStation.resting a fs [] []).work w) (.resting b gs [] []) [] [enq]
  obtain ⟨p₁, hp₁, htake'⟩ := leads_take (enquired_waits hn hattempts ha hw)
    ((LineStation.resting b gs [] []).work q₁) (.resting a fs [] []) [] []
  cases hp₁ with
  | read =>
      cases hq₁ with
      | read =>
          refine ⟨_, hreaches.trans (reaches_of_leads (htake.trans (Leads.flip htake'))), ?_⟩
          exact ⟨final_of_reads rfl rfl, rfl, rfl⟩

theorem exists_read_bind {α γ : Type} {p : LineProcess α} {role : LineRole}
    (h : ∃ next, p = .read role next) (f : α → LineProcess γ) :
    ∃ next, p >>= f = .read role next := by
  obtain ⟨next, rfl⟩ := h
  exact ⟨_, rfl⟩

/-- A station that yields puts `EOT` on the line and waits for a size. -/
theorem yields_eot {turns k : ℕ} {opts : SecsOptions} (hattempts : opts.attempts ≠ 0)
    (hrbit : opts.rbit = false) {m : SecsMessage} {w : LineProcess JobResult}
    (hw : sending (k + 2) opts m (turns + 1) [] = .write .handshake ENQ w) :
    ∃ next, Process.Goes LineRead.byte w [.takes enq]
        (.write .handshake EOT (.read .block next)) ∧
      ∃ next', next (.byte EOT) = .read .block next' := by
  obtain ⟨next, next', hrecv, heot⟩ := recvSecs_eot k
  have hblock : Process.Goes LineRead.byte
      (OnLine.sendBlock (k + 2) opts (m.block opts.rbit) (turns + 1) opts.attempts [])
      [enquiry, .takes enq] (.write .handshake EOT (.read .block fun r => next r >>=
        fun message => OnLine.sendBlock (k + 2) opts (m.block opts.rbit) turns opts.attempts
          ([] ++ message.toList))) := by
    rw [OnLine.sendBlock, if_neg hattempts, ← List.append_nil [enquiry, .takes enq]]
    nth_rewrite 1 [hrbit]
    apply (sendSecsI_yields (Nat.succ_pos _) (m.block opts.rbit)).andThen
    simp only
    rw [hrecv]
    exact .refl _
  have hgoes : Process.Goes LineRead.byte (sending (k + 2) opts m (turns + 1) []) _ _ :=
    (hblock.bind _).bind _
  rw [hw] at hgoes
  cases hgoes with
  | write hgoes =>
      refine ⟨_, hgoes, ?_⟩
      exact exists_read_bind (exists_read_bind (exists_read_bind ⟨next', heot⟩ _) _) _

/-- A byte is taken for something else than it was sent for. -/
theorem LineStation.takes_mixed (s : LineStation) {role role' : LineRole} (hne : role' ≠ role)
    (next : LineRead → LineProcess JobResult) (c : UInt8) :
    Does LineStation.act (s.work (.read role next)) [(role', c)] []
      (({ s with mixed := true } : LineStation).work (next (.byte c))) := by
  have hread : LineStation.act (s.work (.read role next)) = .read fun b =>
      { s with job := some (next (.byte b.2)), mixed := s.mixed || b.1 != role } := rfl
  have hmixed : ({ s with job := some (next (.byte c)), mixed := s.mixed || role' != role } :
      LineStation) = ({ s with mixed := true } : LineStation).work (next (.byte c)) := by
    simp [LineStation.work, hne]
  exact hmixed ▸ Does.read hread (role', c)

theorem stuck_yielding (hn : 1 < n) {a b : SecsOptions} (ha : a.rbit = false)
    (hb : b.rbit = false) (hattempts : a.attempts ≠ 0) (hattempts' : b.attempts ≠ 0)
    (m m' : SecsMessage) (fs gs : List SecsMessage) :
    ∃ s, Relation.ReflTransGen (LineStep n) (lineStart a b (m :: fs) (m' :: gs)) s ∧
      Stuck s n := by
  obtain ⟨turns, w, w', hw, hw', hreaches⟩ :=
    reaches_enquired (Nat.lt_of_succ_lt hn) hattempts hattempts' m m' fs gs
  obtain ⟨k, rfl⟩ : ∃ k, n = k + 2 := ⟨n - 2, by omega⟩
  obtain ⟨next, hgoes, after, heot⟩ := yields_eot hattempts ha hw
  obtain ⟨next', hgoes', after', heot'⟩ := yields_eot hattempts' hb hw'
  obtain ⟨q₁, hq₁, htake⟩ := leads_take hgoes' ((LineStation.resting a fs [] []).work w)
    (.resting b gs [] []) [] [enq]
  obtain ⟨p₁, hp₁, htake'⟩ := leads_take hgoes ((LineStation.resting b gs [] []).work q₁)
    (.resting a fs [] []) [] []
  cases hp₁
  cases hq₁
  have hput := ((LineStation.resting a fs [] []).puts .handshake EOT (.read .block next)).left
    ((LineStation.resting b gs [] []).work (.write .handshake EOT (.read .block next'))) [] []
  have hput' := ((LineStation.resting b gs [] []).puts .handshake EOT (.read .block next')).right
    ((LineStation.resting a fs [] []).work (.read .block next)) [(.handshake, EOT)] []
  have hne : LineRole.handshake ≠ .block := by decide
  have hmix := ((LineStation.resting a fs [] []).takes_mixed hne next EOT).left
    ((LineStation.resting b gs [] []).work (.read .block next')) [(.handshake, EOT)] []
  have hmix' := ((LineStation.resting b gs [] []).takes_mixed hne next' EOT).right
    (({ LineStation.resting a fs [] [] with mixed := true } : LineStation).work
      (next (.byte EOT))) [] []
  rw [List.append_nil] at hmix hmix'
  refine ⟨_, hreaches.trans (reaches_of_leads (htake.trans ((Leads.flip htake').trans
    (hput.trans (hput'.trans (hmix.trans hmix')))))), ?_⟩
  rw [heot, heot']
  exact ⟨final_of_reads rfl rfl, rfl, rfl⟩

end

/-! ## Which stations can share a line -/

theorem Stuck.not_ends {n : ℕ} {a b : SecsOptions} {fs gs : List SecsMessage}
    {s : Line LineStation LineByte} (h : Stuck s n)
    (hreaches : Relation.ReflTransGen (LineStep n) (lineStart a b fs gs) s) :
    ¬ EndsIn (LineStep n) (lineStart a b fs gs) (lineEnd a b fs gs) := by
  intro hends
  obtain ⟨hfinal, hleft, -⟩ := h
  have hlast := hends.last s hreaches hfinal
  rw [hlast] at hleft
  cases hleft

/-- Two stations that both have something to send, and may start whenever they like, get all
messages through in every order exactly when one of them has the R-bit and the other has not. -/
theorem secsI_stations_deliver_iff {a b : SecsOptions} (hattempts : a.attempts ≠ 0)
    (hattempts' : b.attempts ≠ 0) {fs gs : List SecsMessage} (hne : fs ≠ []) (hne' : gs ≠ [])
    (n : ℕ) (hn : fs.length + gs.length + 2 ≤ n) :
    EndsIn (LineStep n) (lineStart a b fs gs) (lineEnd a b fs gs) ↔ a.rbit ≠ b.rbit := by
  obtain ⟨m, fs, rfl⟩ := List.exists_cons_of_ne_nil hne
  obtain ⟨m', gs, rfl⟩ := List.exists_cons_of_ne_nil hne'
  constructor
  · intro hend hrbit
    have hone : 1 < n := by omega
    cases ha : a.rbit with
    | true =>
        obtain ⟨s, hreaches, hstuck⟩ :=
          stuck_insisting hone ha (hrbit ▸ ha) hattempts hattempts' m m' fs gs
        exact hstuck.not_ends hreaches hend
    | false =>
        obtain ⟨s, hreaches, hstuck⟩ :=
          stuck_yielding hone ha (hrbit ▸ ha) hattempts hattempts' m m' fs gs
        exact hstuck.not_ends hreaches hend
  · intro hrbit
    cases ha : a.rbit with
    | true =>
        have hb : b.rbit = false := by
          rw [ha] at hrbit
          exact (Bool.eq_false_or_eq_true b.rbit).resolve_left fun h => hrbit h.symm
        exact (paired_of_le ha hb hattempts hattempts' (by omega)).ends
    | false =>
        have hb : b.rbit = true := by
          rw [ha] at hrbit
          exact (Bool.eq_false_or_eq_true b.rbit).resolve_right fun h => hrbit h.symm
        have hpaired : Paired n b a (m' :: gs) :=
          paired_of_le hb ha hattempts' hattempts (by omega)
        have hends : EndsIn (LineStep n) (lineStart b a (m' :: gs) (m :: fs))
            (lineEnd b a (m' :: gs) (m :: fs)) := hpaired.ends
        exact hends.symmetry (fun _ => rfl) fun s t hstep => hstep.imp OfBoth.flip OfBoth.flip

theorem secsI_stations_deliver_iff_reports :
    EndsIn (LineStep 5) (lineStart ⟨false, 3⟩ ⟨true, 3⟩ [longReport] [areYouThere])
      (lineEnd ⟨false, 3⟩ ⟨true, 3⟩ [longReport] [areYouThere]) ↔ false ≠ true :=
  secsI_stations_deliver_iff (by decide) (by decide) (List.cons_ne_nil _ _)
    (List.cons_ne_nil _ _) 5 (by decide)

end ScOpen
