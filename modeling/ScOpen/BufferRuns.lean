import ScOpen.TextBuffers

/-!
# Runs of operations on text buffers

Any number of buffers, all of them without memory at first, and any sequence of operations on them.
What a buffer holds is told by the texts alone, as long as no text and its terminator need `2 ^ 32`
bytes, no buffer without memory gets something in front of it or is trimmed, and no string without
anything but blanks is trimmed.
-/

namespace ScOpen.TextBuffer

/-- The operations with the memory at their arguments, and the buffer that is copied from. -/
inductive BufferOp where
  | bufcpy (data : Bytes)
  | bufncpy (data : Bytes) (len : ℕ)
  | bufcat (data : Bytes)
  | bufncat (data : Bytes) (len : ℕ)
  | bufPrefix (data : Bytes)
  | buf2bufcpy (buf2 : ℕ)
  | bufrtrim

structure BufferCall where
  target : ℕ
  op : BufferOp
  fresh : ℕ → ℕ → UInt8

def BufferOp.run (bufs : ℕ → TextBuffer) (target : ℕ) (fresh : ℕ → ℕ → UInt8) :
    BufferOp → Option TextBuffer
  | .bufcpy data => (bufs target).bufcpy (fresh 0) (some data)
  | .bufncpy data len => (bufs target).bufncpy (fresh 0) (some data) len
  | .bufcat data => (bufs target).bufcat (fresh 0) (some data)
  | .bufncat data len => (bufs target).bufncat (fresh 0) (some data) len
  | .bufPrefix data => (bufs target).bufPrefix fresh (some data)
  | .buf2bufcpy buf2 => TextBuffer.buf2bufcpy (fresh 0) (bufs target) (bufs buf2)
  | .bufrtrim => (bufs target).bufrtrim

/-- One operation; none when it reads or writes outside of what is allocated. -/
def step (bufs : ℕ → TextBuffer) (call : BufferCall) : Option (ℕ → TextBuffer) :=
  (call.op.run bufs call.target call.fresh).map fun buf i =>
    if i = call.target then buf else bufs i

/-- At a string there is a terminator, at other bytes there are as many as are asked for, and the
two buffers of a copy are different ones. -/
def BufferOp.Valid (target : ℕ) : BufferOp → Prop
  | .bufcpy data | .bufcat data | .bufPrefix data => 0 ∈ data
  | .bufncpy data len | .bufncat data len => len ≤ data.length
  | .buf2bufcpy buf2 => buf2 ≠ target
  | .bufrtrim => True

def BufferOp.total (bufs : ℕ → TextBuffer) (target : ℕ) : BufferOp → ℕ
  | .bufcpy data => (cString data).length
  | .bufncpy _ len => len
  | .bufcat data => (bufs target).index + (cString data).length
  | .bufncat _ len => (bufs target).index + len
  | .bufPrefix data => (cString data).length + (cString ((bufs target).data.getD [])).length
  | .buf2bufcpy buf2 => (bufs buf2).index
  | .bufrtrim => 0

structure InDomain (bufs : ℕ → TextBuffer) (call : BufferCall) : Prop where
  valid : call.op.Valid call.target
  total : call.op.total bufs call.target < 2 ^ 32

def BufferOp.Has (buf : TextBuffer) : BufferOp → Prop
  | .bufPrefix _ => buf.data ≠ none
  | .bufrtrim => ∃ mem, buf.data = some mem ∧ ∃ c ∈ cString mem, c ≠ chr ' '
  | _ => True

structure Fits (bufs : ℕ → TextBuffer) (call : BufferCall) : Prop where
  room : call.op.total bufs call.target + 1 < 2 ^ 32
  has : call.op.Has (bufs call.target)

def BufferOp.result (texts : ℕ → Option Bytes) (target : ℕ) : BufferOp → Bytes
  | .bufcpy data => cString data
  | .bufncpy data len => data.take len
  | .bufcat data => (texts target).getD [] ++ cString data
  | .bufncat data len => (texts target).getD [] ++ data.take len
  | .bufPrefix data => cString data ++ cString ((texts target).getD [])
  | .buf2bufcpy buf2 => (texts buf2).getD []
  | .bufrtrim => trimmed ((texts target).getD [])

section

variable {buf : TextBuffer} {bufs bufs' : ℕ → TextBuffer} {texts : ℕ → Option Bytes}
  {contents : Option Bytes} {call : BufferCall}

/-! ## One operation -/

theorem Is.init_or_holds (h : buf.Is contents) :
    buf = INIT_BUFFER ∨ ∃ text, contents = some text ∧ buf.Holds text := by
  cases h with
  | init => exact .inl rfl
  | text h => exact .inr ⟨_, rfl, h⟩

theorem Is.holds {text : Bytes} (h : buf.Is (some text)) : buf.Holds text := by
  cases h with
  | text h => exact h

theorem Is.front (h : buf.Is contents) : buf.front = contents.getD [] := by
  cases h with
  | init => rfl
  | text h => exact h.front

theorem Is.read (h : buf.Is contents) :
    Cells.read (buf.data.getD []) 0 buf.index = some (contents.getD []) := by
  cases h with
  | init => rfl
  | text h =>
      rename_i text
      obtain ⟨rest, hdata, -⟩ := h.memory
      rw [hdata, h.index]
      exact @Cells.read_append _ [] text (0 :: rest) 0 _ rfl rfl

theorem read_take {data : Bytes} {len : ℕ} (h : len ≤ data.length) :
    Cells.read ((some data).getD []) 0 len = some (data.take len) :=
  if_pos (by rw [Option.getD_some, Nat.zero_add]; exact h)

/-- Something is left of a string with anything but blanks in it when it is trimmed. -/
theorem bufrtrim_ne_nil_iff (text : Bytes) :
    ScOpen.bufrtrim text ≠ [] ↔ ∃ c ∈ cString text, c ≠ chr ' ' := by
  obtain ⟨m, hstring, hkept⟩ := exists_trimmed text
  rw [hstring]
  constructor
  · intro hne
    obtain ⟨front, c, hlast, hc⟩ := hkept.resolve_left hne
    refine ⟨c, List.mem_append_left _ ?_, hc⟩
    rw [hlast]
    exact List.mem_append_right front List.mem_cons_self
  · rintro ⟨c, hmem, hc⟩ hnil
    rw [hnil, List.nil_append] at hmem
    exact hc (List.eq_of_mem_replicate hmem)

theorem Holds.has_iff {text : Bytes} (h : buf.Holds text) :
    BufferOp.bufrtrim.Has buf ↔ ScOpen.bufrtrim text ≠ [] := by
  obtain ⟨mem, hdata, -, hstring⟩ := h.string
  rw [bufrtrim_ne_nil_iff, ← hstring]
  constructor
  · rintro ⟨mem', hdata', hc⟩
    obtain rfl := Option.some.inj (hdata.symm.trans hdata')
    exact hc
  · exact fun hc => ⟨mem, hdata, hc⟩

theorem Holds.string_eq {text : Bytes} (h : buf.Holds text) :
    cString (buf.data.getD []) = cString text := by
  obtain ⟨mem, hdata, -, hstring⟩ := h.string
  rw [hdata]
  exact hstring

/-- An operation that fits leaves what the texts say. -/
theorem run_spec (h : ∀ i, (bufs i).Is (texts i)) (hvalid : call.op.Valid call.target)
    (hfits : Fits bufs call) :
    ∃ buf, call.op.run bufs call.target call.fresh = some buf ∧
      buf.Holds (call.op.result texts call.target) := by
  obtain ⟨target, op, fresh⟩ := call
  obtain ⟨hroom, hhas⟩ := hfits
  have hsized := (h target).sized
  have hstart : ∀ {n : ℕ}, n + 1 < 2 ^ 32 → 0 + n + 1 < 2 ^ 32 := fun {n} hn =>
    (Nat.zero_add n).symm ▸ hn
  have hfront := (h target).front
  cases op with
  | bufcpy data =>
      have hspec := bufcat_spec (fresh 0) hsized.start hvalid (hstart hroom)
      rwa [front_start, List.nil_append] at hspec
  | bufncpy data len =>
      have hspec := bufncat_spec (fresh 0) hsized.start (read_take hvalid) (hstart hroom)
      rwa [front_start, List.nil_append] at hspec
  | bufcat data =>
      have hspec := bufcat_spec (fresh 0) hsized hvalid hroom
      rwa [hfront] at hspec
  | bufncat data len =>
      have hspec := bufncat_spec (fresh 0) hsized (read_take hvalid) hroom
      rwa [hfront] at hspec
  | bufPrefix data =>
      rcases (h target).init_or_holds with hinit | ⟨text, htext, hholds⟩
      · exact absurd (congrArg TextBuffer.data hinit) hhas
      · have hspec := bufPrefix_spec fresh hholds hvalid (hholds.string_eq ▸ hroom)
        simp only [BufferOp.result, htext]
        exact hspec
  | buf2bufcpy buf2 =>
      have hspec := bufncat_spec (fresh 0) hsized.start (h buf2).read (hstart hroom)
      rwa [front_start, List.nil_append] at hspec
  | bufrtrim =>
      rcases (h target).init_or_holds with hinit | ⟨text, htext, hholds⟩
      · obtain ⟨mem, hdata, -⟩ := hhas
        rw [hinit] at hdata
        cases hdata
      · have hspec := bufrtrim_spec hholds (hholds.has_iff.1 hhas)
        simp only [BufferOp.result, htext]
        exact hspec

/-- What is not there cannot be read. -/
theorem run_none_of_not_has (h : ∀ i, (bufs i).Is (texts i))
    (hhas : ¬ call.op.Has (bufs call.target)) :
    call.op.run bufs call.target call.fresh = none := by
  obtain ⟨target, op, fresh⟩ := call
  cases op with
  | bufPrefix data =>
      rcases (h target).init_or_holds with hinit | ⟨text, -, hholds⟩
      · simp only [BufferOp.run, hinit]
        exact bufPrefix_init fresh _
      · obtain ⟨mem, hdata, -⟩ := hholds.string
        refine absurd (fun hnone => ?_) hhas
        rw [hdata] at hnone
        cases hnone
  | bufrtrim =>
      rcases (h target).init_or_holds with hinit | ⟨text, -, hholds⟩
      · simp only [BufferOp.run, hinit]
        rfl
      · exact bufrtrim_none hholds (not_not.1 (mt hholds.has_iff.2 hhas))
  | bufcpy | bufncpy | bufcat | bufncat | buf2bufcpy => exact absurd trivial hhas

/-- Without a place for the terminator something is written behind the block. -/
theorem run_none_of_full (h : ∀ i, (bufs i).Is (texts i)) (hvalid : call.op.Valid call.target)
    (hfull : call.op.total bufs call.target + 1 = 2 ^ 32) :
    call.op.run bufs call.target call.fresh = none := by
  obtain ⟨target, op, fresh⟩ := call
  have hsized := (h target).sized
  have hstart : ∀ {n : ℕ}, n + 1 = 2 ^ 32 → 0 + n + 1 = 2 ^ 32 := fun {n} hn =>
    (Nat.zero_add n).symm ▸ hn
  cases op with
  | bufcpy data => exact bufcat_none (fresh 0) hsized.start hvalid (hstart hfull)
  | bufncpy data len =>
      exact bufncat_none (fresh 0) hsized.start (read_take hvalid) (hstart hfull)
  | bufcat data => exact bufcat_none (fresh 0) hsized hvalid hfull
  | bufncat data len => exact bufncat_none (fresh 0) hsized (read_take hvalid) hfull
  | bufPrefix data =>
      rcases (h target).init_or_holds with hinit | ⟨text, -, hholds⟩
      · simp only [BufferOp.run, hinit]
        exact bufPrefix_init fresh _
      · exact bufPrefix_none fresh hholds hvalid (hholds.string_eq ▸ hfull)
  | buf2bufcpy buf2 => exact bufncat_none (fresh 0) hsized.start (h buf2).read (hstart hfull)
  | bufrtrim => cases hfull

/-- An operation stays in the memory exactly when it fits. -/
theorem step_isSome_iff (h : ∀ i, (bufs i).Is (texts i)) (hdomain : InDomain bufs call) :
    (step bufs call).isSome ↔ Fits bufs call := by
  have htotal := hdomain.total
  rw [step, Option.isSome_map]
  constructor
  · intro hsome
    refine ⟨?_, ?_⟩
    · by_contra hroom
      rw [run_none_of_full h hdomain.valid (by omega)] at hsome
      cases hsome
    · by_contra hhas
      rw [run_none_of_not_has h hhas] at hsome
      cases hsome
  · intro hfits
    obtain ⟨buf, hbuf, -⟩ := run_spec h hdomain.valid hfits
    rw [hbuf]
    rfl

/-! ## Runs -/

def nextTexts (texts : ℕ → Option Bytes) (call : BufferCall) (i : ℕ) : Option Bytes :=
  if i = call.target then some (call.op.result texts call.target) else texts i

/-- The buffers go on as their texts do. -/
theorem step_texts (h : ∀ i, (bufs i).Is (texts i)) (hvalid : call.op.Valid call.target)
    (hfits : Fits bufs call) (hstep : step bufs call = some bufs') (i : ℕ) :
    (bufs' i).Is (nextTexts texts call i) := by
  obtain ⟨buf, hbuf, hholds⟩ := run_spec h hvalid hfits
  rw [step, hbuf] at hstep
  cases hstep
  unfold nextTexts
  by_cases hi : i = call.target
  · simp only [if_pos hi]
    exact .text hholds
  · simp only [if_neg hi]
    exact h i

structure AllHold (bufs : ℕ → TextBuffer) : Prop where
  texts : ∃ texts : ℕ → Option Bytes, ∀ i, (bufs i).Is (texts i)

def Allowed (bufs : ℕ → TextBuffer) (call : BufferCall) : Prop :=
  InDomain bufs call ∧ Fits bufs call

def AllInit (bufs : ℕ → TextBuffer) : Prop := bufs = fun _ => INIT_BUFFER

theorem allHold_of_reaches (h : Runs.Reaches step Allowed AllInit bufs) : AllHold bufs := by
  refine h.invariant ?_ ?_
  · rintro bufs rfl
    exact ⟨fun _ => none, fun _ => .init⟩
  · rintro bufs call bufs' ⟨texts, htexts⟩ ⟨hdomain, hfits⟩ hstep
    exact ⟨_, step_texts htexts hdomain.valid hfits hstep⟩

theorem Is.in_bounds (h : buf.Is contents) :
    buf.index + 1 ≤ buf.size ∧ ∀ mem, buf.data = some mem →
      mem.length = buf.size ∧ mem[buf.index]? = some 0 := by
  cases h with
  | init => exact ⟨by decide, fun mem hmem => by cases hmem⟩
  | text h =>
      rename_i text
      obtain ⟨rest, hdata, hsize⟩ := h.memory
      refine ⟨?_, fun mem hmem => ?_⟩
      · rw [h.index, hsize, List.length_append, List.length_cons]
        omega
      · obtain rfl := Option.some.inj (hdata.symm.trans hmem)
        refine ⟨hsize.symm, ?_⟩
        rw [h.index, List.getElem?_append_right le_rfl, Nat.sub_self]
        rfl

end

/-- In every run whose operations all fit, every buffer that is reached has its length and its
terminator within its block, and a further operation stays within the memory exactly when it fits
too. -/
theorem text_buffers_in_bounds {bufs : ℕ → TextBuffer}
    (h : Runs.Reaches step Allowed AllInit bufs) :
    (∀ i, (bufs i).index + 1 ≤ (bufs i).size ∧ ∀ mem, (bufs i).data = some mem →
      mem.length = (bufs i).size ∧ mem[(bufs i).index]? = some 0) ∧
    ∀ call, InDomain bufs call → ((step bufs call).isSome ↔ Fits bufs call) := by
  obtain ⟨texts, htexts⟩ := allHold_of_reaches h
  exact ⟨fun i => (htexts i).in_bounds, fun call hdomain => step_isSome_iff htexts hdomain⟩

def copyCall (text : Bytes) : BufferCall := ⟨0, .bufcpy (text ++ [0]), fun _ _ => 0⟩

theorem copyCall_allowed {text : Bytes} (htext : text.length + 1 < 2 ^ 32)
    (bufs : ℕ → TextBuffer) : Allowed bufs (copyCall text) := by
  have htotal : (cString (text ++ [0])).length + 1 < 2 ^ 32 := by
    rw [cString_append_terminator]
    exact (Nat.succ_le_succ (List.takeWhile_prefix _).length_le).trans_lt htext
  exact ⟨⟨List.mem_append_right text List.mem_cons_self, Nat.lt_of_succ_lt htotal⟩, htotal, trivial⟩

theorem exists_copied {text : Bytes} (htext : text.length + 1 < 2 ^ 32) :
    ∃ bufs, step (fun _ => INIT_BUFFER) (copyCall text) = some bufs :=
  Option.isSome_iff_exists.1 ((step_isSome_iff (fun _ => Is.init) (copyCall_allowed htext _).1).2
    (copyCall_allowed htext _).2)

theorem text_buffers_in_bounds_copied :
    ∃ bufs, step (fun _ => INIT_BUFFER) (copyCall (cstr "ab")) = some bufs ∧
      (bufs 0).index + 1 ≤ (bufs 0).size := by
  obtain ⟨bufs, hstep⟩ := @exists_copied (cstr "ab") (by decide)
  have hreaches : Runs.Reaches step Allowed AllInit bufs :=
    .next (.start rfl) (copyCall_allowed (by decide) _) hstep
  exact ⟨bufs, hstep, ((text_buffers_in_bounds hreaches).1 0).1⟩

/-- The empty string is copied into a buffer, and then it is trimmed. -/
theorem text_buffers_not_always_in_bounds :
    ¬ ∀ bufs, Runs.Reaches step InDomain AllInit bufs →
      ∀ call, InDomain bufs call → (step bufs call).isSome := by
  intro h
  have hallowed := @copyCall_allowed [] (by decide) fun _ => INIT_BUFFER
  obtain ⟨bufs, hstep⟩ := @exists_copied [] (by decide)
  have hreaches : Runs.Reaches step InDomain AllInit bufs := .next (.start rfl) hallowed.1 hstep
  have htexts := step_texts (fun _ => Is.init) hallowed.1.valid hallowed.2 hstep
  have hdomain : InDomain bufs ⟨0, .bufrtrim, fun _ _ => 0⟩ := ⟨trivial, Nat.two_pow_pos 32⟩
  have hfits := (step_isSome_iff htexts hdomain).1 (h bufs hreaches _ hdomain)
  have hholds : (bufs 0).Holds [] := Is.holds (htexts 0)
  exact hholds.has_iff.1 hfits.has rfl

end ScOpen.TextBuffer
