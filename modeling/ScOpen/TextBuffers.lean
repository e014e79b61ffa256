import ScOpen.Cells
import ScOpen.MemoryBytes
import ScOpen.ReadSource
import ScOpen.Runs

/-!
# Text buffers

A buffer has a block of memory that grows, the length of its text and the size of the block. The
text ends with a terminator and may have others in it. An operation has no result when it reads or
writes outside the memory that it is given, or in front of or behind the block.
-/

namespace ScOpen

def DEFAULT_SIZE : ℕ := 64

/-- `struct buffer`. Nothing is allocated as long as there is no `data`. -/
structure TextBuffer where
  data : Option Bytes
  index : ℕ
  size : ℕ

namespace TextBuffer

def INIT_BUFFER : TextBuffer := ⟨none, 0, DEFAULT_SIZE⟩

def strlen (data : Option Bytes) : Option ℕ :=
  data.bind fun mem => if 0 ∈ mem then some (cString mem).length else none

def malloc (fresh : ℕ → UInt8) (buf : TextBuffer) (len : ℕ) : Option (Bytes × ℕ) :=
  match buf.data with
  | some mem => some (mem, buf.size)
  | none =>
      let lengthToMalloc := max ((len + 1) % 2 ^ 32) buf.size
      (Cells.write (bytesAt fresh [] lengthToMalloc) 0 [0]).map fun mem => (mem, lengthToMalloc)

def realloc (fresh : ℕ → UInt8) (index len : ℕ) (mem : Bytes) (size : ℕ) : Bytes × ℕ :=
  if size < (index + len + 1) % 2 ^ 32 then
    let lengthToRealloc := max ((size + DEFAULT_SIZE) % 2 ^ 32) ((index + len + 1) % 2 ^ 32)
    (bytesAt fresh mem lengthToRealloc, lengthToRealloc)
  else (mem, size)

section

variable (fresh : ℕ → UInt8) (buf : TextBuffer) (data : Option Bytes) (len : ℕ)

def bufncat : Option TextBuffer := do
  let (mem, size) ← buf.malloc fresh len
  let (mem, size) := realloc fresh buf.index len mem size
  let bytes ← Cells.read (data.getD []) 0 len
  let mem ← Cells.write mem buf.index bytes
  let index := (buf.index + len) % 2 ^ 32
  let mem ← Cells.write mem index [0]
  return ⟨some mem, index, size⟩

def bufcat : Option TextBuffer := do bufncat fresh buf data ((← strlen data) % 2 ^ 32)

def bufcpy : Option TextBuffer := do
  bufncat fresh { buf with index := 0 } data ((← strlen data) % 2 ^ 32)

def bufncpy : Option TextBuffer := bufncat fresh { buf with index := 0 } data len

def buf2bufcpy (buf1 buf2 : TextBuffer) : Option TextBuffer :=
  bufncat fresh { buf1 with index := 0 } buf2.data buf2.index

end

/-- `bufprefix()`; the three operations find different things in new memory. -/
def bufPrefix (fresh : ℕ → ℕ → UInt8) (buf : TextBuffer) (data : Option Bytes) :
    Option TextBuffer := do
  let x ← bufcpy (fresh 0) INIT_BUFFER data
  let x ← bufcat (fresh 1) x buf.data
  bufcpy (fresh 2) buf x.data

def rtrimLoop : ℕ → Bytes → Option Bytes
  | 0, _ => none
  | k + 1, mem => do
      let c ← Cells.read mem k 1
      if c = [chr ' '] then rtrimLoop k (← Cells.write mem k [0]) else return mem

def bufrtrim (buf : TextBuffer) : Option TextBuffer := do
  let mem ← buf.data
  let mem ← rtrimLoop (← strlen buf.data) mem
  return { buf with data := some mem }

/-! ## The text in a buffer -/

/-- The block is as long as the buffer says, and the text and a terminator are in it. -/
structure Holds (buf : TextBuffer) (text : Bytes) : Prop where
  memory : ∃ rest, buf.data = some (text ++ 0 :: rest) ∧ buf.size = (text ++ 0 :: rest).length
  index : buf.index = text.length
  size : buf.size < 2 ^ 32

/-- A buffer without memory, or one that holds a text. -/
inductive Is : TextBuffer → Option Bytes → Prop
  | init : Is INIT_BUFFER none
  | text {buf : TextBuffer} {text : Bytes} (h : buf.Holds text) : Is buf (some text)

def front (buf : TextBuffer) : Bytes := (buf.data.getD []).take buf.index

/-- There is a place for a terminator, or nothing at all. -/
inductive Sized : TextBuffer → Prop
  | init : Sized INIT_BUFFER
  | memory {mem : Bytes} {index : ℕ} (hindex : index < mem.length) (hsize : mem.length < 2 ^ 32) :
      Sized ⟨some mem, index, mem.length⟩

section

variable {fresh : ℕ → UInt8} {buf : TextBuffer} {data : Option Bytes} {len : ℕ}
  {text bytes : Bytes}

theorem Holds.sized (h : buf.Holds text) : buf.Sized := by
  obtain ⟨data, index, size⟩ := buf
  obtain ⟨⟨rest, hdata, hsize⟩, hindex, hsmall⟩ := h
  dsimp only at hdata hsize hindex hsmall
  subst hdata hsize
  refine .memory ?_ hsmall
  rw [hindex, List.length_append, List.length_cons]
  omega

/-- From the start of the block. -/
theorem Sized.start (h : buf.Sized) : ({ buf with index := 0 } : TextBuffer).Sized := by
  cases h with
  | init => exact .init
  | memory hindex hsize => exact .memory (Nat.zero_lt_of_lt hindex) hsize

theorem front_start (buf : TextBuffer) :
    ({ buf with index := 0 } : TextBuffer).front = [] := rfl

theorem Holds.front (h : buf.Holds text) : buf.front = text := by
  obtain ⟨rest, hdata, -⟩ := h.memory
  rw [TextBuffer.front, hdata, h.index]
  exact List.take_left

theorem Is.sized {contents : Option Bytes} (h : buf.Is contents) : buf.Sized := by
  cases h with
  | init => exact .init
  | text h => exact h.sized

/-! ## `bufncat()` -/

theorem malloc_spec (fresh : ℕ → UInt8) (len : ℕ) (h : buf.Sized) :
    ∃ mem, buf.malloc fresh len = some (mem, mem.length) ∧ buf.index < mem.length ∧
      mem.length < 2 ^ 32 ∧ mem.take buf.index = buf.front := by
  cases h with
  | init =>
      obtain ⟨n, hn⟩ : ∃ n, n = max ((len + 1) % 2 ^ 32) DEFAULT_SIZE := ⟨_, rfl⟩
      have hsize : 0 < n ∧ n < 2 ^ 32 := by
        rw [hn, DEFAULT_SIZE]
        omega
      have hlength := bytesAt_length fresh [] n
      obtain ⟨mem, hmem⟩ := Option.isSome_iff_exists.1 (Cells.write_isSome.2
        (show 0 + [(0 : UInt8)].length ≤ (bytesAt fresh [] n).length by rw [hlength]; exact hsize.1))
      have hlength' : mem.length = n := (Cells.write_length hmem).2.trans hlength
      refine ⟨mem, ?_, hlength' ▸ hsize.1, hlength' ▸ hsize.2, rfl⟩
      simp only [malloc, INIT_BUFFER, ← hn, hmem, hlength', Option.map_some]
  | memory hindex hsize => exact ⟨_, rfl, hindex, hsize, rfl⟩

theorem bytesAt_take {mem : Bytes} {k n : ℕ} (hk : k ≤ mem.length) (hn : k ≤ n) :
    (bytesAt fresh mem n).take k = mem.take k := by
  apply List.ext_getElem?
  intro i
  by_cases hi : i < k
  · rw [List.getElem?_take_of_lt hi, List.getElem?_take_of_lt hi, bytesAt_getElem? _ _ (by omega),
      List.getElem?_eq_getElem (by omega)]
    rfl
  · rw [List.getElem?_take_eq_none (by omega), List.getElem?_take_eq_none (by omega)]

theorem realloc_spec (fresh : ℕ → UInt8) (len : ℕ) {mem : Bytes} {index : ℕ}
    (hindex : index < mem.length) (hsmall : mem.length < 2 ^ 32) :
    ∃ mem', realloc fresh index len mem mem.length = (mem', mem'.length) ∧ mem'.length < 2 ^ 32 ∧
      mem'.take index = mem.take index ∧
      (index + len + 1 < 2 ^ 32 → index + len + 1 ≤ mem'.length) := by
  unfold realloc
  split
  · rename_i hgrows
    obtain ⟨n, hn⟩ : ∃ n, n = max ((mem.length + DEFAULT_SIZE) % 2 ^ 32)
      ((index + len + 1) % 2 ^ 32) := ⟨_, rfl⟩
    have hlength := bytesAt_length fresh mem n
    rw [← hn]
    refine ⟨bytesAt fresh mem n, by rw [hlength], ?_, bytesAt_take hindex.le ?_, fun hroom => ?_⟩
    · omega
    · omega
    · omega
  · exact ⟨mem, rfl, hsmall, rfl, fun hroom => by omega⟩

/-- With the block that it has or gets, `bufncat()` puts the bytes and a terminator into it. -/
theorem bufncat_eq (fresh : ℕ → UInt8) (h : buf.Sized)
    (hread : Cells.read (data.getD []) 0 len = some bytes) :
    ∃ mem, mem.length < 2 ^ 32 ∧ mem.take buf.index = buf.front ∧
      (buf.index + len + 1 < 2 ^ 32 → buf.index + len + 1 ≤ mem.length) ∧
      buf.bufncat fresh data len = (Cells.write mem buf.index bytes).bind fun mem' =>
        (Cells.write mem' ((buf.index + len) % 2 ^ 32) [0]).bind fun mem' =>
          some ⟨some mem', (buf.index + len) % 2 ^ 32, mem.length⟩ := by
  obtain ⟨mem, hmalloc, hindex, hsmall, hfront⟩ := malloc_spec fresh len h
  obtain ⟨mem', hrealloc, hsmall', hkept, hroom⟩ := realloc_spec fresh len hindex hsmall
  refine ⟨mem', hsmall', hkept.trans hfront, hroom, ?_⟩
  simp only [bufncat, hmalloc, hrealloc, hread, bind, Option.bind_some, pure]

/-- The bytes are put behind what is in front of the place. -/
theorem bufncat_spec (fresh : ℕ → UInt8) (h : buf.Sized)
    (hread : Cells.read (data.getD []) 0 len = some bytes)
    (hroom : buf.index + len + 1 < 2 ^ 32) :
    ∃ buf', buf.bufncat fresh data len = some buf' ∧ buf'.Holds (buf.front ++ bytes) := by
  obtain ⟨mem, hsmall, hfront, hlength, heq⟩ := bufncat_eq fresh h hread
  have hbytes := Cells.read_length hread
  have hmem := hlength hroom
  obtain ⟨old, back, hsplit, hold⟩ := @Cells.exists_split _ mem buf.index len (by omega)
  have hfrontLength : buf.front.length = buf.index := by
    rw [← hfront, List.length_take]
    omega
  rw [hfront] at hsplit
  obtain ⟨x, rest, rfl⟩ : ∃ x rest, back = x :: rest := by
    cases back with
    | nil =>
        rw [hsplit, List.append_nil, List.length_append] at hmem
        omega
    | cons x rest => exact ⟨x, rest, rfl⟩
  have hwrite : Cells.write mem buf.index bytes = some (buf.front ++ (bytes ++ x :: rest)) := by
    rw [hsplit]
    exact Cells.write_append hfrontLength (hold.trans hbytes.symm)
  have hindex : (buf.index + len) % 2 ^ 32 = buf.index + len := Nat.mod_eq_of_lt (by omega)
  have hplace : (buf.front ++ bytes).length = buf.index + len := by
    rw [List.length_append, hfrontLength, hbytes]
  have hend : Cells.write (buf.front ++ (bytes ++ x :: rest)) (buf.index + len) [0] =
      some (buf.front ++ bytes ++ 0 :: rest) := by
    rw [← List.append_assoc]
    exact @Cells.write_append _ _ [x] [0] rest _ hplace rfl
  refine ⟨⟨some (buf.front ++ bytes ++ 0 :: rest), buf.index + len, mem.length⟩, ?_,
    ⟨rest, rfl, ?_⟩, hplace.symm, hsmall⟩
  · rw [heq, hindex, hwrite, Option.bind_some, hend, Option.bind_some]
  · rw [hsplit]
    simp only [List.length_append, List.length_cons]
    omega

/-- Without room for the terminator in 32 bits something is written behind the block. -/
theorem bufncat_none (fresh : ℕ → UInt8) (h : buf.Sized)
    (hread : Cells.read (data.getD []) 0 len = some bytes) (hfull : buf.index + len + 1 = 2 ^ 32) :
    buf.bufncat fresh data len = none := by
  obtain ⟨mem, hsmall, -, -, heq⟩ := bufncat_eq fresh h hread
  have hindex : (buf.index + len) % 2 ^ 32 = buf.index + len := Nat.mod_eq_of_lt (by omega)
  rw [heq, hindex]
  cases hwrite : Cells.write mem buf.index bytes with
  | none => rfl
  | some mem' =>
      have hlength := (Cells.write_length hwrite).2
      have hend : Cells.write mem' (buf.index + len) [0] = none := if_neg (by
        rw [hlength, List.length_singleton]
        omega)
      rw [Option.bind_some, hend]
      rfl

/-! ## C strings -/

theorem strlen_of_zero {mem : Bytes} (hzero : 0 ∈ mem) :
    strlen (some mem) = some (cString mem).length := if_pos hzero

theorem read_cString {mem : Bytes} (hzero : 0 ∈ mem) :
    Cells.read ((some mem).getD []) 0 (cString mem).length = some (cString mem) := by
  obtain ⟨rest, hrest⟩ := cString_append_zero hzero
  have hread := @Cells.read_append _ [] (cString mem) (0 :: rest) 0 _ rfl rfl
  rwa [List.nil_append, ← hrest] at hread

/-- The terminator behind a text ends it, if it has not ended before. -/
theorem cString_append_terminator (text rest : Bytes) :
    cString (text ++ 0 :: rest) = cString text := by
  by_cases hzero : 0 ∈ text
  · obtain ⟨back, hback⟩ := cString_append_zero hzero
    conv_lhs => rw [hback, List.append_assoc, List.cons_append]
    exact cString_zero (zero_notMem_cString text) _
  · rw [cString_zero hzero, cString_eq_self hzero]

theorem bufcat_spec {mem : Bytes} (fresh : ℕ → UInt8) (h : buf.Sized) (hzero : 0 ∈ mem)
    (hroom : buf.index + (cString mem).length + 1 < 2 ^ 32) :
    ∃ buf', buf.bufcat fresh (some mem) = some buf' ∧ buf'.Holds (buf.front ++ cString mem) := by
  have hlength : (cString mem).length % 2 ^ 32 = (cString mem).length :=
    Nat.mod_eq_of_lt (by omega)
  obtain ⟨buf', hbuf', hholds⟩ := bufncat_spec fresh h (read_cString hzero) hroom
  refine ⟨buf', ?_, hholds⟩
  simp only [bufcat, strlen_of_zero hzero, bind, Option.bind_some, hlength]
  exact hbuf'

theorem bufcat_none {mem : Bytes} (fresh : ℕ → UInt8) (h : buf.Sized) (hzero : 0 ∈ mem)
    (hfull : buf.index + (cString mem).length + 1 = 2 ^ 32) :
    buf.bufcat fresh (some mem) = none := by
  have hlength : (cString mem).length % 2 ^ 32 = (cString mem).length :=
    Nat.mod_eq_of_lt (by omega)
  simp only [bufcat, strlen_of_zero hzero, bind, Option.bind_some, hlength]
  exact bufncat_none fresh h (read_cString hzero) hfull

/-- `bufcpy()` is `bufcat()` from the start. -/
theorem bufcpy_eq (fresh : ℕ → UInt8) (buf : TextBuffer) (data : Option Bytes) :
    buf.bufcpy fresh data = ({ buf with index := 0 } : TextBuffer).bufcat fresh data := rfl

/-- What stands in a buffer, taken for a C string. -/
theorem Holds.string (h : buf.Holds text) :
    ∃ mem, buf.data = some mem ∧ 0 ∈ mem ∧ cString mem = cString text := by
  obtain ⟨rest, hdata, -⟩ := h.memory
  exact ⟨_, hdata, List.mem_append_right text List.mem_cons_self, cString_append_terminator text rest⟩

/-! ## `bufprefix()` -/

theorem bufPrefix_spec {mem : Bytes} (fresh : ℕ → ℕ → UInt8) (h : buf.Holds text)
    (hzero : 0 ∈ mem) (hroom : (cString mem).length + (cString text).length + 1 < 2 ^ 32) :
    ∃ buf', buf.bufPrefix fresh (some mem) = some buf' ∧
      buf'.Holds (cString mem ++ cString text) := by
  obtain ⟨textMem, hdata, htextMem, hstring⟩ := h.string
  obtain ⟨x, hx, hxHolds⟩ := bufcat_spec (fresh 0) Sized.init.start hzero
    (show 0 + (cString mem).length + 1 < 2 ^ 32 by omega)
  rw [front_start, List.nil_append] at hxHolds
  have hindex : x.index = (cString mem).length := hxHolds.index
  obtain ⟨y, hy, hyHolds⟩ := bufcat_spec (fresh 1) hxHolds.sized htextMem (by
    rw [hindex, hstring]
    exact hroom)
  rw [hxHolds.front, hstring] at hyHolds
  obtain ⟨yMem, hyData, hyMem, hyString⟩ := hyHolds.string
  have hwhole : cString (cString mem ++ cString text) = cString mem ++ cString text :=
    cString_eq_self fun hmem => (List.mem_append.1 hmem).elim (zero_notMem_cString _)
      (zero_notMem_cString _)
  obtain ⟨buf', hbuf', hholds⟩ := bufcat_spec (fresh 2) h.sized.start hyMem (by
    rw [hyString, hwhole, List.length_append]
    exact (Nat.zero_add _).symm ▸ hroom)
  rw [front_start, List.nil_append, hyString, hwhole] at hholds
  refine ⟨buf', ?_, hholds⟩
  rw [hdata] at hbuf'
  simp only [bufPrefix, bufcpy_eq, hx, hdata, hy, hyData, bind, Option.bind_some]
  exact hbuf'

theorem bufPrefix_none {mem : Bytes} (fresh : ℕ → ℕ → UInt8) (h : buf.Holds text) (hzero : 0 ∈ mem)
    (hfull : (cString mem).length + (cString text).length + 1 = 2 ^ 32) :
    buf.bufPrefix fresh (some mem) = none := by
  obtain ⟨textMem, hdata, htextMem, hstring⟩ := h.string
  simp only [bufPrefix, bufcpy_eq, hdata, bind]
  by_cases hnil : (cString text).length = 0
  · rw [bufcat_none (fresh 0) Sized.init.start hzero (by
      rw [hnil] at hfull
      exact (Nat.zero_add _).symm ▸ hfull)]
    rfl
  · obtain ⟨x, hx, hxHolds⟩ := bufcat_spec (fresh 0) Sized.init.start hzero
      (show 0 + (cString mem).length + 1 < 2 ^ 32 by omega)
    rw [front_start, List.nil_append] at hxHolds
    have hindex : x.index = (cString mem).length := hxHolds.index
    have hnone := bufcat_none (fresh 1) hxHolds.sized htextMem (by
      rw [hindex, hstring]
      exact hfull)
    rw [hx, Option.bind_some, hnone]
    rfl

/-- A buffer without memory has no string to put behind another one. -/
theorem bufPrefix_init (fresh : ℕ → ℕ → UInt8) (data : Option Bytes) :
    INIT_BUFFER.bufPrefix fresh data = none := by
  simp only [bufPrefix, bind]
  cases INIT_BUFFER.bufcpy (fresh 0) data with
  | none => rfl
  | some x => rfl

/-! ## `bufrtrim()` -/

theorem rtrimLoop_succ (front back : Bytes) (c : UInt8) :
    rtrimLoop (front.length + 1) (front ++ c :: back) =
      if c = chr ' ' then rtrimLoop front.length (front ++ 0 :: back)
      else some (front ++ c :: back) := by
  have hread : Cells.read (front ++ c :: back) front.length 1 = some [c] :=
    @Cells.read_append _ front [c] back _ 1 rfl rfl
  have hwrite : Cells.write (front ++ c :: back) front.length [0] = some (front ++ 0 :: back) :=
    @Cells.write_append _ front [c] [0] back _ rfl rfl
  simp only [rtrimLoop, hread, hwrite, bind, Option.bind_some, List.cons.injEq, and_true]
  rfl

/-- Over blanks the loop goes back and clears them. -/
theorem rtrimLoop_blanks (kept : Bytes) (m : ℕ) (back : Bytes) :
    rtrimLoop (kept.length + m) (kept ++ (List.replicate m (chr ' ') ++ back)) =
      rtrimLoop kept.length (kept ++ (List.replicate m 0 ++ back)) := by
  induction m generalizing back with
  | zero => rfl
  | succ m ih =>
      have hstep := rtrimLoop_succ (kept ++ List.replicate m (chr ' ')) back (chr ' ')
      have hlength : (kept ++ List.replicate m (chr ' ')).length = kept.length + m := by
        rw [List.length_append, List.length_replicate]
      rw [if_pos rfl, hlength, List.append_assoc, List.append_assoc, ih] at hstep
      rw [List.replicate_succ', List.replicate_succ', List.append_assoc, List.append_assoc,
        ← Nat.add_assoc]
      exact hstep

/-- A string is what is left of it when it is trimmed, and blanks. -/
theorem exists_trimmed (text : Bytes) :
    ∃ m, cString text = ScOpen.bufrtrim text ++ List.replicate m (chr ' ') ∧
      (ScOpen.bufrtrim text = [] ∨
        ∃ front c, ScOpen.bufrtrim text = front ++ [c] ∧ c ≠ chr ' ') := by
  obtain ⟨w, hw, hblanks, hstop⟩ :=
    exists_dropWhile (fun c => decide (c = chr ' ')) (cString text).reverse
  have hreplicate : w = List.replicate w.length (chr ' ') :=
    List.eq_replicate_of_mem fun c hc => of_decide_eq_true (hblanks c hc)
  refine ⟨w.length, ?_, ?_⟩
  · have hreverse := congrArg List.reverse hw
    rw [List.reverse_reverse, List.reverse_append] at hreverse
    rw [← List.reverse_replicate, ← hreplicate]
    exact hreverse
  · cases hdrop : (cString text).reverse.dropWhile fun c => decide (c = chr ' ') with
    | nil =>
        left
        rw [ScOpen.bufrtrim, hdrop]
        rfl
    | cons c rest =>
        right
        refine ⟨rest.reverse, c, ?_, of_decide_eq_false (hstop c rest hdrop)⟩
        rw [ScOpen.bufrtrim, hdrop, List.reverse_cons]

def trimmed (text : Bytes) : Bytes :=
  ScOpen.bufrtrim text ++ (List.replicate ((cString text).length - (ScOpen.bufrtrim text).length) 0 ++
    text.drop (cString text).length)

theorem text_split (text : Bytes) :
    text = cString text ++ text.drop (cString text).length := by
  have hstart : cString text = text.take (cString text).length :=
    List.prefix_iff_eq_take.1 (List.takeWhile_prefix _)
  conv_lhs => rw [← List.take_append_drop (cString text).length text, ← hstart]

theorem trimmed_length (text : Bytes) : (trimmed text).length = text.length := by
  obtain ⟨m, hstring, -⟩ := exists_trimmed text
  have hlength := congrArg List.length hstring
  have htext := congrArg List.length (text_split text)
  rw [List.length_append, List.length_replicate] at hlength
  rw [List.length_append] at htext
  rw [trimmed, List.length_append, List.length_append, List.length_replicate]
  omega

/-- The loop clears the blanks, and then it is in front of them. -/
theorem rtrimLoop_eq (text rest : Bytes) :
    rtrimLoop (cString text).length (text ++ 0 :: rest) =
      rtrimLoop (ScOpen.bufrtrim text).length (trimmed text ++ 0 :: rest) := by
  obtain ⟨m, hstring, -⟩ := exists_trimmed text
  have hlength : (cString text).length = (ScOpen.bufrtrim text).length + m := by
    rw [hstring, List.length_append, List.length_replicate]
  have hcleared : (cString text).length - (ScOpen.bufrtrim text).length = m := by omega
  have hsplit := text_split text
  rw [trimmed, hcleared]
  generalize text.drop (cString text).length = back at hsplit ⊢
  have htext : text ++ 0 :: rest =
      ScOpen.bufrtrim text ++ (List.replicate m (chr ' ') ++ (back ++ 0 :: rest)) := by
    conv_lhs => rw [hsplit, hstring]
    simp only [List.append_assoc]
  rw [htext, hlength, rtrimLoop_blanks, List.append_assoc, List.append_assoc]

theorem bufrtrim_memory (h : buf.Holds text) :
    ∃ rest, buf.size = (trimmed text ++ 0 :: rest).length ∧
      buf.bufrtrim = (rtrimLoop (ScOpen.bufrtrim text).length (trimmed text ++ 0 :: rest)).bind
        fun mem => some { buf with data := some mem } := by
  obtain ⟨rest, hdata, hsize⟩ := h.memory
  have hzero : 0 ∈ text ++ 0 :: rest := List.mem_append_right text List.mem_cons_self
  refine ⟨rest, ?_, ?_⟩
  · rw [hsize, List.length_append, List.length_append, trimmed_length]
  · simp only [bufrtrim, hdata, bind, Option.bind_some, strlen_of_zero hzero,
      cString_append_terminator, rtrimLoop_eq]
    rfl

/-- The blanks at the end of the string are cleared when there is something in front of them. -/
theorem bufrtrim_spec (h : buf.Holds text) (hne : ScOpen.bufrtrim text ≠ []) :
    ∃ buf', buf.bufrtrim = some buf' ∧ buf'.Holds (trimmed text) := by
  obtain ⟨rest, hsize, heq⟩ := bufrtrim_memory h
  obtain ⟨m, -, hnil | ⟨front, c, hkept, hc⟩⟩ := exists_trimmed text
  · exact absurd hnil hne
  · obtain ⟨back, hback⟩ : ∃ back, trimmed text = ScOpen.bufrtrim text ++ back := ⟨_, rfl⟩
    have hmem : trimmed text ++ 0 :: rest = front ++ c :: (back ++ 0 :: rest) := by
      rw [hback, hkept, List.append_assoc, List.append_assoc]
      rfl
    have hloop := rtrimLoop_succ front (back ++ 0 :: rest) c
    rw [if_neg hc, ← hmem] at hloop
    refine ⟨{ buf with data := some (trimmed text ++ 0 :: rest) }, ?_, ⟨rest, rfl, hsize⟩, ?_,
      h.size⟩
    · rw [heq, hkept, List.length_append, List.length_singleton, hloop]
      rfl
    · exact h.index.trans (trimmed_length text).symm

/-- With nothing in front of them the byte in front of the block is read. -/
theorem bufrtrim_none (h : buf.Holds text) (hnil : ScOpen.bufrtrim text = []) :
    buf.bufrtrim = none := by
  obtain ⟨rest, -, heq⟩ := bufrtrim_memory h
  rw [heq, hnil]
  rfl

end

end TextBuffer

end ScOpen
