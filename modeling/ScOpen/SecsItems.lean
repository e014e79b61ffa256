import ScOpen.ByteOrder

/-!
# SECS-II items as bytes

An item starts with a format byte, whose low two bits say how many length bytes follow, and its
length. A list's length is the number of its items, any other item's length is the number of
its data bytes. `Items n bs` is the grammar of `n` items one after another. A walk goes from
header to header without looking at the nesting, so it composes along the grammar.
-/

namespace ScOpen

inductive ElementType where
  | binary | boolean
  | unsigned1 | unsigned2 | unsigned4 | unsigned8
  | signed1 | signed2 | signed4 | signed8
  | float4 | float8
  deriving DecidableEq

inductive SecsType where
  | list
  | ascii
  | elements (t : ElementType)
  deriving DecidableEq

def ElementType.width : ElementType → ℕ
  | .binary | .boolean | .unsigned1 | .signed1 => 1
  | .unsigned2 | .signed2 => 2
  | .unsigned4 | .signed4 | .float4 => 4
  | .unsigned8 | .signed8 | .float8 => 8

def ElementType.code : ElementType → ℕ
  | .binary => 0x20
  | .boolean => 0x24
  | .unsigned1 => 0xA4
  | .unsigned2 => 0xA8
  | .unsigned4 => 0xB0
  | .unsigned8 => 0xA0
  | .signed1 => 0x64
  | .signed2 => 0x68
  | .signed4 => 0x70
  | .signed8 => 0x60
  | .float4 => 0x90
  | .float8 => 0x80

def SecsType.code : SecsType → ℕ
  | .list => 0x00
  | .ascii => 0x40
  | .elements t => t.code

def secsType? : ℕ → Option SecsType
  | 0x00 => some .list
  | 0x40 => some .ascii
  | 0x20 => some (.elements .binary)
  | 0x24 => some (.elements .boolean)
  | 0xA4 => some (.elements .unsigned1)
  | 0xA8 => some (.elements .unsigned2)
  | 0xB0 => some (.elements .unsigned4)
  | 0xA0 => some (.elements .unsigned8)
  | 0x64 => some (.elements .signed1)
  | 0x68 => some (.elements .signed2)
  | 0x70 => some (.elements .signed4)
  | 0x60 => some (.elements .signed8)
  | 0x90 => some (.elements .float4)
  | 0x80 => some (.elements .float8)
  | _ => none

theorem secsType?_code (t : SecsType) : secsType? t.code = some t := by
  rcases t with _ | _ | t
  · rfl
  · rfl
  · cases t <;> rfl

theorem ElementType.width_pos (t : ElementType) : 0 < t.width := by
  cases t <;> decide

def headerBytes (t : SecsType) (k size : ℕ) : Bytes := UInt8.ofNat (t.code + k) :: beBytes k size

def SecsType.HoldsData : SecsType → ℕ → Prop
  | .list, _ => False
  | .ascii, _ => True
  | .elements t, size => t.width ∣ size

inductive Items : ℕ → Bytes → Prop where
  | nil : Items 0 []
  | list {k size n : ℕ} {kids next : Bytes} (hk : k ∈ [1, 2, 3]) (hsize : size < 256 ^ k)
      (hkids : Items size kids) (hnext : Items n next) :
      Items (n + 1) (headerBytes .list k size ++ kids ++ next)
  | data {t : SecsType} {k n : ℕ} {data next : Bytes} (hk : k ∈ [1, 2, 3])
      (hsize : data.length < 256 ^ k) (ht : t.HoldsData data.length) (hnext : Items n next) :
      Items (n + 1) (headerBytes t k data.length ++ data ++ next)

def WellFormed (body : Bytes) : Prop := ∃ n, Items n body

/-! ## Walking from header to header -/

structure Header where
  code : ℕ
  size : ℕ
  deriving DecidableEq

def SecsType.ownBytes : SecsType → ℕ → ℕ
  | .list, _ => 0
  | .ascii, size => size
  | .elements t, size => t.width * (size / t.width)

/-- How many length bytes the low bits of a format byte announce; 0 is read like 3. -/
def lengthByteCount (numLengthBits : ℕ) : ℕ :=
  if numLengthBits = 1 then 1 else if numLengthBits = 2 then 2 else 3

def takeHeader : Bytes → Option (Header × Bytes)
  | [] => none
  | b :: bs =>
      let count := lengthByteCount (b.toNat &&& 0x03)
      if count ≤ bs.length then
        some (⟨b.toNat &&& 0xFC, beValue (bs.take count)⟩, bs.drop count)
      else none

inductive WalkEnd where
  | finished
  | unknownCode
  | truncated
  deriving DecidableEq

theorem takeHeader_length {bs rest : Bytes} {h : Header} (hh : takeHeader bs = some (h, rest)) :
    rest.length < bs.length := by
  cases bs with
  | nil => cases hh
  | cons b bs =>
      simp only [takeHeader] at hh
      split at hh
      · cases hh
        rw [List.length_drop, List.length_cons]
        omega
      · cases hh

/-- The headers met on the way through a byte string, and how the way ends: at the end of the
bytes, after a header with an unknown code, or in a header or data that is cut short. -/
def walk (bs : Bytes) : List Header × WalkEnd :=
  if bs = [] then ([], .finished)
  else
    match _h : takeHeader bs with
    | none => ([], .truncated)
    | some (h, rest) =>
        match secsType? h.code with
        | none => ([h], .unknownCode)
        | some t =>
            if t.ownBytes h.size ≤ rest.length then
              let (hs, e) := walk (rest.drop (t.ownBytes h.size))
              (h :: hs, e)
            else ([h], .truncated)
termination_by bs.length
decreasing_by
  rw [List.length_drop]
  have := takeHeader_length _h
  omega

theorem walk_nil : walk [] = ([], .finished) := by
  rw [walk, if_pos rfl]

theorem walk_none {bs : Bytes} (hne : bs ≠ []) (hh : takeHeader bs = none) :
    walk bs = ([], .truncated) := by
  rw [walk, if_neg hne]
  split
  · rfl
  · rename_i heq
    rw [hh] at heq
    cases heq

theorem walk_some {bs rest : Bytes} {h : Header} (hh : takeHeader bs = some (h, rest)) :
    walk bs = match secsType? h.code with
      | none => ([h], .unknownCode)
      | some t =>
          if t.ownBytes h.size ≤ rest.length then
            (h :: (walk (rest.drop (t.ownBytes h.size))).1,
              (walk (rest.drop (t.ownBytes h.size))).2)
          else ([h], .truncated) := by
  have hne : bs ≠ [] := by
    intro h0
    rw [h0] at hh
    cases hh
  conv_lhs => rw [walk, if_neg hne]
  split
  · rename_i heq
    rw [hh] at heq
    cases heq
  · rename_i h' rest' heq
    rw [hh] at heq
    cases heq
    cases secsType? h.code <;> rfl

theorem format_byte {t : SecsType} {k : ℕ} (hk : k ∈ [1, 2, 3]) :
    (UInt8.ofNat (t.code + k)).toNat &&& 0xFC = t.code ∧
      lengthByteCount ((UInt8.ofNat (t.code + k)).toNat &&& 0x03) = k := by
  rcases t with _ | _ | t
  · revert k; decide
  · revert k; decide
  · revert k; cases t <;> decide

/-- The header of a well-formed item is read back whatever follows it. -/
theorem takeHeader_headerBytes {t : SecsType} {k size : ℕ} (hk : k ∈ [1, 2, 3])
    (hsize : size < 256 ^ k) (tail : Bytes) :
    takeHeader (headerBytes t k size ++ tail) = some (⟨t.code, size⟩, tail) := by
  obtain ⟨hcode, hcount⟩ := format_byte (t := t) hk
  have htake : (beBytes k size ++ tail).take k = beBytes k size :=
    List.take_left' (length_beBytes k size)
  have hdrop : (beBytes k size ++ tail).drop k = tail := List.drop_left' (length_beBytes k size)
  simp only [headerBytes, List.cons_append, takeHeader, hcode, hcount]
  rw [if_pos (by simp), htake, hdrop, beValue_beBytes_of_lt hsize]

/-- A walk goes through well-formed items and continues with what follows them. -/
theorem Items.walk_append {n : ℕ} {bs : Bytes} (hitems : Items n bs) :
    ∃ hs, ∀ tail, walk (bs ++ tail) = (hs ++ (walk tail).1, (walk tail).2) := by
  induction hitems with
  | nil => exact ⟨[], fun tail => rfl⟩
  | @list k size n kids next hk hsize _ _ ihkids ihnext =>
      obtain ⟨hs₁, h₁⟩ := ihkids
      obtain ⟨hs₂, h₂⟩ := ihnext
      refine ⟨⟨SecsType.code .list, size⟩ :: (hs₁ ++ hs₂), fun tail => ?_⟩
      have hheader := takeHeader_headerBytes (t := .list) hk hsize (kids ++ (next ++ tail))
      rw [List.append_assoc, List.append_assoc, walk_some hheader]
      simp only [secsType?_code, SecsType.ownBytes, Nat.zero_le, if_true, List.drop_zero, h₁, h₂,
        List.cons_append, List.append_assoc]
  | @data t k n data next hk hsize ht _ ihnext =>
      obtain ⟨hs, h⟩ := ihnext
      refine ⟨⟨t.code, data.length⟩ :: hs, fun tail => ?_⟩
      have hheader := takeHeader_headerBytes (t := t) hk hsize (data ++ (next ++ tail))
      have hown : t.ownBytes data.length = data.length := by
        rcases t with _ | _ | t
        · exact ht.elim
        · rfl
        · exact Nat.mul_div_cancel' ht
      rw [List.append_assoc, List.append_assoc, walk_some hheader]
      simp only [secsType?_code, hown, List.length_append, Nat.le_add_right, if_true,
        List.drop_left, h, List.cons_append]

theorem WellFormed.walk_finished {body : Bytes} (hwf : WellFormed body) :
    (walk body).2 = .finished := by
  obtain ⟨n, hitems⟩ := hwf
  obtain ⟨hs, h⟩ := hitems.walk_append
  have := h []
  rw [List.append_nil, walk_nil] at this
  rw [this]

theorem Items.two_mul_le {n : ℕ} {bs : Bytes} (hitems : Items n bs) : 2 * n ≤ bs.length := by
  induction hitems with
  | nil => exact Nat.zero_le _
  | list hk _ _ _ _ ihnext =>
      have hpos := List.mem_cons.1 hk
      simp only [headerBytes, List.length_append, List.length_cons, length_beBytes]
      simp only [List.mem_cons, List.not_mem_nil, or_false] at hpos
      omega
  | data hk _ _ _ ihnext =>
      have hpos := List.mem_cons.1 hk
      simp only [headerBytes, List.length_append, List.length_cons, length_beBytes]
      simp only [List.mem_cons, List.not_mem_nil, or_false] at hpos
      omega

/-- A well-formed list has room for its items after its header. -/
theorem Items.list_room {n size : ℕ} {bs rest : Bytes} (hitems : Items n bs)
    (hh : takeHeader bs = some (⟨SecsType.list.code, size⟩, rest)) : 2 * size ≤ rest.length := by
  cases hitems with
  | nil => cases hh
  | list hk hsize hkids hnext =>
      rw [List.append_assoc, takeHeader_headerBytes hk hsize] at hh
      cases hh
      have := hkids.two_mul_le
      rw [List.length_append]
      omega
  | @data t k n data next hk hsize ht hnext =>
      rw [List.append_assoc, takeHeader_headerBytes hk hsize] at hh
      have hcode : t.code = SecsType.list.code := congrArg (fun p => p.1.code) (Option.some.inj hh)
      have hlist : t = .list := by
        have h := secsType?_code t
        rw [hcode, secsType?_code] at h
        exact (Option.some.inj h).symm
      rw [hlist] at ht
      exact ht.elim

end ScOpen
