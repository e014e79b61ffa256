import ScOpen.Hsms
import Mathlib.Algebra.BigOperators.Intervals
import Mathlib.Algebra.Order.BigOperators.Group.Finset

/-!
# Delivery of HSMS messages over a chunked byte stream

The peer writes messages with `sendHsmsI` one after another; the operating system cuts the
stream at arbitrary places. `recvBody` asks for `maxRead` bytes whatever is left of the body, so
a read can run into the next message. Delivery succeeds exactly when no body read does.
-/

namespace ScOpen

open Finset

def wireBytes (ms : List HsmsMessage) : Bytes :=
  ms.flatMap fun m => (sendHsmsI m.header m.body).flatten

/-- A line on which the `r`-th read hands over up to `cut r` bytes and no timer expires. -/
def chunkedLine (unread : Bytes) (cut : ℕ → ℕ) (reads : ℕ) : HsmsLine :=
  { unread, event := fun r => .gives (cut r), reads, timer8 := false }

/-- The calls of `recvHsmsI` return 0 with the messages in order, and in no call does the count
of body bytes still to be read pass below zero. -/
def Delivers (line : HsmsLine) : List HsmsMessage → Prop
  | [] => True
  | m :: ms => ∃ counts line', recvHsmsI line = .received m.header m.body counts line' ∧
      (∀ c ∈ counts, c.2 ≤ c.1) ∧ Delivers line' ms

def bulk (cut : ℕ → ℕ) (r : ℕ) : ℕ := min maxRead (max 1 (cut r))

/-- Starting with read number `r`, every message but the last ends where one of its body reads
ends. Each message takes fourteen single-byte reads before its body. -/
def BodiesEndAtReads (cut : ℕ → ℕ) : ℕ → List HsmsMessage → Prop
  | _, [] => True
  | _, [_] => True
  | r, m :: m' :: ms => ∃ j, ∑ t ∈ range j, bulk cut (r + 14 + t) = m.body.length ∧
      BodiesEndAtReads cut (r + 14 + j) (m' :: ms)

theorem bulk_pos (cut : ℕ → ℕ) (r : ℕ) : 0 < bulk cut r := by
  unfold bulk maxRead
  omega

theorem sendHsmsI_flatten (m : HsmsMessage) :
    (sendHsmsI m.header m.body).flatten =
      beBytes 4 (10 + m.body.length) ++ (m.header ++ m.body) := by
  have hlen : (10 + m.body.length) % 2 ^ 32 = 10 + m.body.length := by
    have := m.length_fits
    omega
  have hbody : (m.body.map fun c => [c]).flatten = m.body := by
    induction m.body with
    | nil => rfl
    | cons c cs ih => simp [ih]
  simp only [sendHsmsI, hlen, swap_leBytes, List.flatten_cons, hbody, List.append_assoc]

theorem wireBytes_cons (m : HsmsMessage) (ms : List HsmsMessage) :
    wireBytes (m :: ms) =
      beBytes 4 (10 + m.body.length) ++ (m.header ++ (m.body ++ wireBytes ms)) := by
  simp only [wireBytes, List.flatMap_cons, sendHsmsI_flatten, List.append_assoc]

/-- A single-byte read takes the next byte, however the stream is cut. -/
theorem recvBytes_chunked (stop : Bool) (front rest : Bytes) (cut : ℕ → ℕ) (r : ℕ) :
    recvBytes stop front.length (chunkedLine (front ++ rest) cut r) =
      .got front (chunkedLine rest cut (r + front.length)) := by
  induction front generalizing r with
  | nil => rfl
  | cons c front ih =>
      have hread : myReadx (chunkedLine (c :: (front ++ rest)) cut r).startTimer8 1 =
          .got [c] { chunkedLine (front ++ rest) cut (r + 1) with timer8 := true } := by
        simp [myReadx, chunkedLine, HsmsLine.startTimer8]
      have hstop : ({ chunkedLine (front ++ rest) cut (r + 1) with timer8 := true } :
          HsmsLine).stopTimer8 = chunkedLine (front ++ rest) cut (r + 1) := rfl
      rw [List.cons_append, List.length_cons, recvBytes, hread]
      simp only [hstop, ih, List.singleton_append]
      rw [Nat.add_right_comm, Nat.add_assoc]

theorem recvHsmsI_sent (m : HsmsMessage) (rest : Bytes) (cut : ℕ → ℕ) (r : ℕ) :
    recvHsmsI (chunkedLine ((sendHsmsI m.header m.body).flatten ++ rest) cut r) =
      recvBody m.header m.body.length [] [] (chunkedLine (m.body ++ rest) cut (r + 14)) := by
  have hfits := m.length_fits
  have hlength : recvBytes true 4
      (chunkedLine ((sendHsmsI m.header m.body).flatten ++ rest) cut r) =
      .got (beBytes 4 (10 + m.body.length))
        (chunkedLine (m.header ++ (m.body ++ rest)) cut (r + 4)) := by
    have h := recvBytes_chunked true (beBytes 4 (10 + m.body.length))
      (m.header ++ (m.body ++ rest)) cut r
    rwa [length_beBytes, ← List.append_assoc m.header, ← List.append_assoc,
      ← sendHsmsI_flatten, List.append_assoc m.header] at h
  have hheader : recvBytes false 10 (chunkedLine (m.header ++ (m.body ++ rest)) cut (r + 4)) =
      .got m.header (chunkedLine (m.body ++ rest) cut (r + 14)) := by
    have h := recvBytes_chunked false m.header (m.body ++ rest) cut (r + 4)
    rwa [m.header_length] at h
  have hcount : sub32 (leValue (swap (beBytes 4 (10 + m.body.length)))) 10 = m.body.length := by
    rw [leValue_swap, beValue_beBytes_of_lt (by omega), sub32_of_le (by omega) (by omega)]
    omega
  simp only [recvHsmsI, hlength, hheader, hcount]

theorem recvHsmsI_chunked (m : HsmsMessage) (ms : List HsmsMessage) (cut : ℕ → ℕ) (r : ℕ) :
    recvHsmsI (chunkedLine (wireBytes (m :: ms)) cut r) =
      recvBody m.header m.body.length [] [] (chunkedLine (m.body ++ wireBytes ms) cut (r + 14)) :=
  recvHsmsI_sent m (wireBytes ms) cut r

/-- One turn of the body loop: the read takes the next `bulk` bytes, or all that are left. -/
theorem recvBody_step (header body : Bytes) (i : ℕ) (counts : List (ℕ × ℕ)) (unread : Bytes)
    (cut : ℕ → ℕ) (r : ℕ) (hi : i ≠ 0) (hne : unread ≠ []) :
    recvBody header i body counts (chunkedLine unread cut r) =
      recvBody header (sub32 i (min (bulk cut r) unread.length))
        (body ++ unread.take (bulk cut r))
        (counts ++ [(i, min (bulk cut r) unread.length)])
        (chunkedLine (unread.drop (bulk cut r)) cut (r + 1)) := by
  have hread : myReadx (chunkedLine unread cut r).startTimer8 maxRead =
      .got (unread.take (bulk cut r))
        { chunkedLine (unread.drop (bulk cut r)) cut (r + 1) with timer8 := true } := by
    simp [myReadx, chunkedLine, HsmsLine.startTimer8, hne, bulk]
  rw [recvBody_of_got hi _ _ _ hread, List.length_take]
  rfl

theorem recvBody_zero (header body : Bytes) (counts : List (ℕ × ℕ)) (line : HsmsLine) :
    recvBody header 0 body counts line = .received header body counts line := by
  rw [recvBody, if_pos rfl]

theorem recvBody_counts_initial {header body header' body' : Bytes} {i : ℕ}
    {counts counts' : List (ℕ × ℕ)} {line line' : HsmsLine}
    (h : recvBody header i body counts line = .received header' body' counts' line') :
    counts <+: counts' := by
  fun_induction recvBody header i body counts line with
  | case1 => cases h; exact List.prefix_rfl
  | case2 _ _ _ _ _ _ _ _ ih => exact (List.prefix_append _ _).trans (ih h)
  | case3 => cases h
  | case4 => cases h
  | case5 _ _ _ _ _ _ _ _ ih => exact (List.prefix_append _ _).trans (ih h)

/-- Reads that end exactly at the end of the body deliver the body and stop there. -/
theorem recvBody_of_sum (header data rest body : Bytes) (counts : List (ℕ × ℕ))
    (cut : ℕ → ℕ) (r j : ℕ) (hfits : data.length < 2 ^ 32)
    (hsum : ∑ t ∈ range j, bulk cut (r + t) = data.length)
    (hcounts : ∀ c ∈ counts, c.2 ≤ c.1) :
    ∃ counts', recvBody header data.length body counts (chunkedLine (data ++ rest) cut r) =
        .received header (body ++ data) counts' (chunkedLine rest cut (r + j)) ∧
      ∀ c ∈ counts', c.2 ≤ c.1 := by
  induction j generalizing data body counts r with
  | zero =>
      have hdata : data = [] := List.eq_nil_of_length_eq_zero (by simpa using hsum.symm)
      subst hdata
      exact ⟨counts, by simp [recvBody_zero], hcounts⟩
  | succ j ih =>
      rw [sum_range_succ'] at hsum
      simp only [Nat.add_zero] at hsum
      have hpos := bulk_pos cut r
      have hle : bulk cut r ≤ data.length := by omega
      have hne : data ++ rest ≠ [] := by
        intro h
        have := congrArg List.length h
        simp only [List.length_append, List.length_nil] at this
        omega
      have hmin : min (bulk cut r) (data ++ rest).length = bulk cut r := by
        rw [List.length_append]
        omega
      have htail : ∑ t ∈ range j, bulk cut (r + 1 + t) = (data.drop (bulk cut r)).length := by
        rw [List.length_drop]
        have hcongr : ∑ t ∈ range j, bulk cut (r + 1 + t) =
            ∑ t ∈ range j, bulk cut (r + (t + 1)) :=
          sum_congr rfl fun t _ => by rw [Nat.add_assoc, Nat.add_comm 1 t]
        omega
      obtain ⟨counts', hrun, hok⟩ := ih (data.drop (bulk cut r)) (body ++ data.take (bulk cut r))
        (counts ++ [(data.length, bulk cut r)]) (r + 1)
        (by rw [List.length_drop]; omega) htail (by
          intro c hc
          rcases List.mem_append.1 hc with hc | hc
          · exact hcounts c hc
          · rw [List.mem_singleton.1 hc]
            exact hle)
      refine ⟨counts', ?_, hok⟩
      rw [recvBody_step _ _ _ _ _ _ _ (by omega) hne, hmin, sub32_of_le hle hfits,
        List.take_append_of_le_length hle, List.drop_append_of_le_length hle,
        ← List.length_drop, hrun, List.append_assoc, List.take_append_drop]
      congr 2
      omega

/-- Conversely, when bytes follow the body and the count never passes below zero, some read ends
exactly at the end of the body. -/
theorem sum_of_recvBody {header data rest body header' body' : Bytes}
    {counts counts' : List (ℕ × ℕ)} {cut : ℕ → ℕ} {r : ℕ} {line' : HsmsLine}
    (hrest : rest ≠ []) (hfits : data.length < 2 ^ 32)
    (hrun : recvBody header data.length body counts (chunkedLine (data ++ rest) cut r) =
      .received header' body' counts' line')
    (hcounts : ∀ c ∈ counts', c.2 ≤ c.1) :
    ∃ j, ∑ t ∈ range j, bulk cut (r + t) = data.length ∧
      line' = chunkedLine rest cut (r + j) := by
  induction hn : data.length using Nat.strong_induction_on generalizing data body counts r with
  | _ n ih =>
  by_cases hzero : data = []
  · subst hzero
    rw [List.length_nil, recvBody_zero] at hrun
    cases hrun
    exact ⟨0, by simpa using hn, rfl⟩
  · have hlen : 0 < data.length := List.length_pos_of_ne_nil hzero
    have hrestlen : 0 < rest.length := List.length_pos_of_ne_nil hrest
    have hpos := bulk_pos cut r
    rw [recvBody_step _ _ _ _ _ _ _ (by omega) (by simp [hzero])] at hrun
    have hle : bulk cut r ≤ data.length := by
      have hmem := (recvBody_counts_initial hrun).subset
        (List.mem_append_right counts (List.mem_singleton.2 rfl))
      have hbound := hcounts _ hmem
      simp only [List.length_append] at hbound
      omega
    have hmin : min (bulk cut r) (data ++ rest).length = bulk cut r := by
      rw [List.length_append]
      omega
    rw [hmin, sub32_of_le hle hfits, List.take_append_of_le_length hle,
      List.drop_append_of_le_length hle, ← List.length_drop] at hrun
    have hdrop : (data.drop (bulk cut r)).length = n - bulk cut r := by
      rw [List.length_drop, hn]
    obtain ⟨j, hsum, hline⟩ := ih (n - bulk cut r) (by omega) (by omega) hrun hdrop
    refine ⟨j + 1, ?_, ?_⟩
    · rw [sum_range_succ']
      have hcongr : ∑ t ∈ range j, bulk cut (r + (t + 1)) =
          ∑ t ∈ range j, bulk cut (r + 1 + t) :=
        sum_congr rfl fun t _ => by rw [Nat.add_assoc, Nat.add_comm 1 t]
      simp only [Nat.add_zero, hcongr, hsum]
      omega
    · rw [hline]
      congr 1
      omega

/-- The body of the last message is delivered however it is cut: no read can pass its end. -/
theorem recvBody_last (header data body : Bytes) (counts : List (ℕ × ℕ)) (cut : ℕ → ℕ) (r : ℕ)
    (hfits : data.length < 2 ^ 32) (hcounts : ∀ c ∈ counts, c.2 ≤ c.1) :
    ∃ counts' r', recvBody header data.length body counts (chunkedLine data cut r) =
        .received header (body ++ data) counts' (chunkedLine [] cut r') ∧
      ∀ c ∈ counts', c.2 ≤ c.1 := by
  induction hn : data.length using Nat.strong_induction_on generalizing data body counts r with
  | _ n ih =>
  by_cases hzero : data = []
  · subst hzero
    cases hn
    exact ⟨counts, r, by rw [List.length_nil, recvBody_zero, List.append_nil], hcounts⟩
  · have hlen : 0 < data.length := List.length_pos_of_ne_nil hzero
    have hpos := bulk_pos cut r
    have hle : min (bulk cut r) data.length ≤ n := by omega
    have hdrop : (data.drop (bulk cut r)).length = n - min (bulk cut r) data.length := by
      rw [List.length_drop]
      omega
    obtain ⟨counts', r', hrun, hok⟩ := ih (n - min (bulk cut r) data.length) (by omega)
      (data.drop (bulk cut r)) (body ++ data.take (bulk cut r))
      (counts ++ [(n, min (bulk cut r) data.length)]) (r + 1) (by omega) (by
        intro c hc
        rcases List.mem_append.1 hc with hc | hc
        · exact hcounts c hc
        · rw [List.mem_singleton.1 hc]
          exact hle) hdrop
    refine ⟨counts', r', ?_, hok⟩
    rw [recvBody_step _ _ _ _ _ _ _ (by omega) hzero, sub32_of_le hle (by omega), hrun,
      List.append_assoc, List.take_append_drop]

theorem delivers_chunkedLine_iff (ms : List HsmsMessage) (cut : ℕ → ℕ) (r : ℕ) :
    Delivers (chunkedLine (wireBytes ms) cut r) ms ↔ BodiesEndAtReads cut r ms := by
  induction ms generalizing r with
  | nil => simp only [Delivers, BodiesEndAtReads]
  | cons m ms ih =>
      have hfits : m.body.length < 2 ^ 32 := by
        have := m.length_fits
        omega
      cases ms with
      | nil =>
          have hlast := recvBody_last m.header m.body [] [] cut (r + 14) hfits (by simp)
          obtain ⟨counts', r', hrun, hok⟩ := hlast
          have hwire : m.body ++ wireBytes [] = m.body := by simp [wireBytes]
          simp only [BodiesEndAtReads, iff_true]
          refine ⟨counts', chunkedLine [] cut r', ?_, hok, trivial⟩
          rw [recvHsmsI_chunked, hwire, hrun, List.nil_append]
      | cons m' ms =>
          have hrest : wireBytes (m' :: ms) ≠ [] := by
            intro h
            have := congrArg List.length h
            simp [wireBytes_cons] at this
          constructor
          · rintro ⟨counts, line', hrun, hok, hnext⟩
            rw [recvHsmsI_chunked] at hrun
            obtain ⟨j, hsum, hline⟩ := sum_of_recvBody hrest hfits hrun hok
            rw [hline] at hnext
            exact ⟨j, hsum, (ih _).1 hnext⟩
          · rintro ⟨j, hsum, hnext⟩
            obtain ⟨counts', hrun, hok⟩ := recvBody_of_sum m.header m.body
              (wireBytes (m' :: ms)) [] [] cut (r + 14) j hfits hsum (by simp)
            refine ⟨counts', _, ?_, hok, (ih _).2 hnext⟩
            rw [recvHsmsI_chunked, hrun, List.nil_append]

/-- Messages sent one after another are delivered exactly when every message but the last ends
where one of its body reads ends. -/
theorem hsms_delivery_iff (ms : List HsmsMessage) (cut : ℕ → ℕ) :
    Delivers (chunkedLine (wireBytes ms) cut 0) ms ↔ BodiesEndAtReads cut 0 ms :=
  delivers_chunkedLine_iff ms cut 0

/-- Two messages that arrive in one piece: the body read of the first takes the second too. -/
theorem hsms_delivery_fails :
    ¬ ∀ (ms : List HsmsMessage) (cut : ℕ → ℕ), Delivers (chunkedLine (wireBytes ms) cut 0) ms := by
  intro hall
  let first : HsmsMessage := ⟨List.replicate 10 0, [1], rfl, by decide⟩
  let second : HsmsMessage := ⟨List.replicate 10 0, [], rfl, by decide⟩
  have h := (delivers_chunkedLine_iff [first, second] (fun _ => 2048) 0).1 (hall _ _)
  obtain ⟨j, hsum, -⟩ := h
  have hsum' : ∑ _t ∈ range j, 2048 = 1 := hsum
  rw [sum_const_nat fun _ _ => rfl, card_range] at hsum'
  omega

end ScOpen
