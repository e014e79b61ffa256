import ScOpen.ConvertData
import ScOpen.Escapes

/-!
# Receiving on the standard protocol

`recv_standard()` reads one byte after the other, appends its printable text to the reply and stops
once the text of the end of a message is in the reply.
-/

namespace ScOpen

/-- The loop of `recv_standard()` on the bytes that arrive: the reply and the bytes that are left;
`none` when it waits for more. -/
def recvStandardLoop (rcvEol : Bytes) : Bytes → Bytes → Option (Bytes × Bytes)
  | _, [] => none
  | reply, c :: stream =>
      if rcvEol ≠ [] ∧ ¬rcvEol <:+: reply ++ escaped c then
        recvStandardLoop rcvEol (reply ++ escaped c) stream
      else some (reply ++ escaped c, stream)

def recvStandard (rcvEol stream : Bytes) : Option (Bytes × Bytes) :=
  recvStandardLoop rcvEol [] stream

structure EndsFirst (e received : Bytes) : Prop where
  ends : e <:+ received
  first : ∀ earlier, earlier <+: received → e <:+ earlier → earlier = received

/-- From every stream that has `e` in it, exactly the bytes up to its first end are taken. -/
def StopsBehind (e : Bytes) : Prop :=
  ∀ stream, e <:+: stream → ∃ received rest, stream = received ++ rest ∧ EndsFirst e received ∧
    recvStandard (dataToChar e) stream = some (dataToChar received, rest)

/-! ## The printable text as a code -/

theorem escaped_code : Escapes.Code escaped IsPrintable where
  plain c hc := if_pos hc
  ne_nil c := by
    cases escaped_cases c with
    | plain h htext => simp [htext]
    | newline h htext => simp [htext]
    | carriageReturn h htext => simp [htext]
    | hex h htext => simp [htext]
  chars c a ha := by
    cases escaped_cases c with
    | plain h htext =>
        rw [htext, List.mem_singleton] at ha
        exact ha ▸ h
    | newline h htext =>
        rw [htext] at ha
        have hprint : ∀ a ∈ [chr '\\', chr 'n'], IsPrintable a :=
          List.forall_mem_cons.2 ⟨by decide, List.forall_mem_singleton.2 (by decide)⟩
        exact hprint a ha
    | carriageReturn h htext =>
        rw [htext] at ha
        have hprint : ∀ a ∈ [chr '\\', chr 'r'], IsPrintable a :=
          List.forall_mem_cons.2 ⟨by decide, List.forall_mem_singleton.2 (by decide)⟩
        exact hprint a ha
    | hex h htext =>
        obtain ⟨hhi, hlo⟩ := hexPair_digits c
        simp only [htext, hexPair, List.mem_cons, List.not_mem_nil, or_false] at ha
        rcases ha with rfl | rfl | rfl | rfl
        · decide
        · decide
        · exact (lowerHex_ne _ hhi).2.2
        · exact (lowerHex_ne _ hlo).2.2

theorem dataToChar_append (p q : Bytes) : dataToChar (p ++ q) = dataToChar p ++ dataToChar q :=
  List.flatMap_append

/-! ## Where the loop stops -/

/-- The loop stops at the first text in which the end is found. -/
theorem recvStandardLoop_stops {rcvEol received stream : Bytes} (hne : rcvEol ≠ [])
    (hnot : ¬rcvEol <:+: dataToChar received)
    (hfound : rcvEol <:+: dataToChar (received ++ stream)) :
    ∃ taken rest, stream = taken ++ rest ∧
      recvStandardLoop rcvEol (dataToChar received) stream =
        some (dataToChar (received ++ taken), rest) ∧
      rcvEol <:+: dataToChar (received ++ taken) ∧
      ∀ earlier, earlier <+: taken → rcvEol <:+: dataToChar (received ++ earlier) →
        earlier = taken := by
  induction stream generalizing received with
  | nil =>
      rw [List.append_nil] at hfound
      exact absurd hfound hnot
  | cons c stream ih =>
      have hone : dataToChar (received ++ [c]) = dataToChar received ++ escaped c := by
        rw [dataToChar_append]
        exact congrArg _ (List.flatMap_singleton _ _)
      by_cases hnow : rcvEol <:+: dataToChar received ++ escaped c
      · refine ⟨[c], stream, rfl, ?_, ?_, ?_⟩
        · rw [recvStandardLoop, if_neg fun h => h.2 hnow, hone]
        · rw [hone]
          exact hnow
        · intro earlier hle hmatch
          cases earlier with
          | nil =>
              rw [List.append_nil] at hmatch
              exact absurd hmatch hnot
          | cons d earlier => exact hle.eq_of_length_le (by simp)
      · have hrest : received ++ c :: stream = received ++ [c] ++ stream := by simp
        rw [hrest] at hfound
        obtain ⟨taken, rest, hstream, hloop, hmatch, hfirst⟩ := ih (by rw [hone]; exact hnow) hfound
        refine ⟨c :: taken, rest, by rw [hstream]; rfl, ?_, ?_, ?_⟩
        · rw [recvStandardLoop, if_pos ⟨hne, hnow⟩, ← hone, hloop]
          simp
        · simpa using hmatch
        · intro earlier hle hmatch'
          cases earlier with
          | nil =>
              rw [List.append_nil] at hmatch'
              exact absurd hmatch' hnot
          | cons d earlier =>
              obtain ⟨rfl, htail⟩ := List.cons_prefix_cons.1 hle
              rw [hfirst earlier htail (by simpa using hmatch')]

theorem recvStandard_stops {rcvEol stream : Bytes} (hne : rcvEol ≠ [])
    (hfound : rcvEol <:+: dataToChar stream) :
    ∃ taken rest, stream = taken ++ rest ∧
      recvStandard rcvEol stream = some (dataToChar taken, rest) ∧
      rcvEol <:+: dataToChar taken ∧
      ∀ earlier, earlier <+: taken → rcvEol <:+: dataToChar earlier → earlier = taken :=
  @recvStandardLoop_stops rcvEol [] stream hne (fun h => hne (List.infix_nil.1 h)) hfound

theorem dataToChar_ne_nil {e : Bytes} (he : e ≠ []) : dataToChar e ≠ [] := by
  cases e with
  | nil => exact absurd rfl he
  | cons c e =>
      rw [dataToChar_cons]
      exact List.append_ne_nil_of_left_ne_nil (escaped_code.ne_nil c) _

theorem dataToChar_inside {e s : Bytes} (h : e <:+: s) : dataToChar e <:+: dataToChar s := by
  obtain ⟨left, right, rfl⟩ := h
  rw [dataToChar_append, dataToChar_append]
  exact ⟨_, _, rfl⟩

/-- The right bytes are taken exactly when the text is found only where the bytes are. -/
theorem stopsBehind_iff_found {e : Bytes} (he : e ≠ []) :
    StopsBehind e ↔ ∀ s, dataToChar e <:+: dataToChar s → e <:+: s := by
  have hne := dataToChar_ne_nil he
  constructor
  · intro h s hfound
    obtain ⟨received, rest, hstream, hends, hrecv⟩ := h (s ++ e) (List.suffix_append s e).isInfix
    obtain ⟨taken, rest', hstream', hrecv', -, hfirst⟩ :=
      recvStandard_stops hne (hfound.trans (dataToChar_inside (List.prefix_append s e).isInfix))
    have hrest : rest = rest' := by
      rw [hrecv, Option.some.injEq, Prod.mk.injEq] at hrecv'
      exact hrecv'.2
    have htaken : received = taken := by
      rw [hstream, hrest] at hstream'
      exact List.append_cancel_right hstream'
    have hle : taken <+: s := by
      have hprefix : taken <+: s ++ e := ⟨rest', hstream'.symm⟩
      rcases List.prefix_or_prefix_of_prefix hprefix (List.prefix_append s e) with hle | hle
      · exact hle
      · rw [hfirst s hle hfound]
    exact (htaken ▸ hends.ends).isInfix.trans hle.isInfix
  · intro h stream hstream
    obtain ⟨taken, rest, hsplit, hrecv, hfound, hfirst⟩ :=
      recvStandard_stops hne (dataToChar_inside hstream)
    have hmatch : ∀ earlier, e <:+ earlier → dataToChar e <:+: dataToChar earlier :=
      fun earlier hsuffix => dataToChar_inside hsuffix.isInfix
    obtain ⟨left, right, htaken⟩ := h taken hfound
    have hends : left ++ e = taken :=
      hfirst (left ++ e) ⟨right, htaken⟩ (hmatch _ (List.suffix_append left e))
    exact ⟨taken, rest, hsplit, ⟨⟨left, hends⟩, fun earlier hle hsuffix =>
      hfirst earlier hle (hmatch earlier hsuffix)⟩, hrecv⟩

/-- Every stream is cut right exactly when the end of a message is printable, and neither covers
the escape of a byte that is not printable in part, nor is covered by one. -/
theorem recv_standard_stops_iff {e : Bytes} (he : e ≠ []) :
    StopsBehind e ↔
      (∀ c ∈ e, IsPrintable c) ∧ ∀ c, ¬IsPrintable c → ¬Escapes.Overlap (escaped c) e :=
  (stopsBehind_iff_found he).trans (Escapes.found_iff escaped_code he)

/-- An exclamation mark is in no escape. -/
theorem recv_standard_stops_mark : StopsBehind [chr '!'] := by
  refine (recv_standard_stops_iff (List.cons_ne_nil _ _)).2
    ⟨List.forall_mem_singleton.2 (by decide), fun c hc hoverlap => ?_⟩
  obtain ⟨a, ha, hmark⟩ := hoverlap.exists_mem (escaped_code.ne_nil c) (List.cons_ne_nil _ _)
  obtain rfl := List.mem_singleton.1 hmark
  cases escaped_cases c with
  | plain h htext => exact hc h
  | newline h htext =>
      rw [htext] at ha
      exact absurd ha (by decide)
  | carriageReturn h htext =>
      rw [htext] at ha
      exact absurd ha (by decide)
  | hex h htext =>
      obtain ⟨hhi, hlo⟩ := hexPair_digits c
      have hdigit : ∀ d < 16, lowerHex d ≠ chr '!' := by decide
      simp only [htext, hexPair, List.mem_cons, List.not_mem_nil, or_false] at ha
      rcases ha with ha | ha | ha | ha
      · exact absurd ha (by decide)
      · exact absurd ha (by decide)
      · exact hdigit _ hhi ha.symm
      · exact hdigit _ hlo ha.symm

/-- A backslash and an `n` are taken for the line feed that ends a message. -/
theorem recv_standard_not_always_stops : ¬∀ e : Bytes, e ≠ [] → StopsBehind e := by
  intro h
  obtain ⟨received, rest, hstream, hends, hrecv⟩ :=
    h [chr '\n'] (List.cons_ne_nil _ _) [chr '\\', chr 'n', chr '\n'] (by decide)
  have htwo : recvStandard (dataToChar [chr '\n']) [chr '\\', chr 'n', chr '\n'] =
      some ([chr '\\', chr 'n'], [chr '\n']) := by decide
  rw [htwo, Option.some.injEq, Prod.mk.injEq] at hrecv
  have hreceived : received = [chr '\\', chr 'n'] := by
    rw [← hrecv.2] at hstream
    exact (@List.append_cancel_right _ [chr '\\', chr 'n'] _ _ hstream).symm
  have hends' := hends.ends
  rw [hreceived] at hends'
  exact absurd hends' (by decide)

end ScOpen
