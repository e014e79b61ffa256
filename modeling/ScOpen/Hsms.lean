import ScOpen.CTypes

/-!
# HSMS messages on a connection

`sendHsmsI` writes a message as its length, its header and its body. `recvHsmsI` reads one
message back: four length bytes and ten header bytes one at a time, then the body in pieces of
up to `maxRead` bytes. A line is what the receiving end sees of the connection: the bytes that
the peer has written and the program has not read, and what each further `read()` will do.
-/

namespace ScOpen

/-- An HSMS message that fits the 32-bit length in front of it. -/
structure HsmsMessage where
  header : Bytes
  body : Bytes
  header_length : header.length = 10
  length_fits : body.length + 10 < 2 ^ 32

/-- The `my_write()` calls of `send_hsmsI()`: length and header at once, then the body bytewise. -/
def sendHsmsI (header body : Bytes) : List Bytes :=
  let theUint32 := (10 + body.length) % 2 ^ 32
  (swap (leBytes 4 theUint32) ++ header) :: body.map (fun c => [c])

/-- What one `read()` does: it hands over up to `k` bytes, it fails (an error or end of file),
or the T8 alarm ends the wait for it. The alarm jumps to a call of `do_the_setsigjump()` that is
over, so the program goes on behind the read with the value 1; `stale` is what the buffer has
first. -/
inductive ReadEvent where
  | gives (k : ℕ)
  | fails
  | expires (stale : UInt8)

/-- The receiving end of a connection. `timer8` says whether proto timer 8 is running. -/
structure HsmsLine where
  unread : Bytes
  event : ℕ → ReadEvent
  reads : ℕ
  timer8 : Bool

inductive ReadResult where
  | got (data : Bytes) (line : HsmsLine)
  | failed (line : HsmsLine)
  | expired (stale : UInt8) (line : HsmsLine)
  | blocked

/-- `start_proto_timer(t8, 8, ..)`. A timer that already runs is left as it is. -/
def HsmsLine.startTimer8 (line : HsmsLine) : HsmsLine := { line with timer8 := true }

def HsmsLine.stopTimer8 (line : HsmsLine) : HsmsLine := { line with timer8 := false }

@[simp] theorem HsmsLine.startTimer8_unread (line : HsmsLine) :
    line.startTimer8.unread = line.unread := rfl

@[simp] theorem HsmsLine.stopTimer8_unread (line : HsmsLine) :
    line.stopTimer8.unread = line.unread := rfl

/-- `my_readx()`, and `my_readc()` for `len = 1`. With nothing to read it waits for ever, unless
the wait fails or the alarm goes off, which also clears the timer. -/
def myReadx (line : HsmsLine) (len : ℕ) : ReadResult :=
  match line.event line.reads with
  | .fails => .failed { line with reads := line.reads + 1 }
  | .expires stale => .expired stale { line with reads := line.reads + 1, timer8 := false }
  | .gives k =>
      if line.unread = [] then .blocked
      else .got (line.unread.take (min len (max 1 k)))
        { line with unread := line.unread.drop (min len (max 1 k)), reads := line.reads + 1 }

theorem myReadx_expired {line line' : HsmsLine} {len : ℕ} {stale : UInt8}
    (h : myReadx line len = .expired stale line') : line'.unread = line.unread := by
  unfold myReadx at h
  split at h
  · cases h
  · cases h
    rfl
  · split at h <;> cases h

theorem myReadx_unread_lt {line line' : HsmsLine} {len : ℕ} {data : Bytes} (hlen : 0 < len)
    (h : myReadx line len = .got data line') : line'.unread.length < line.unread.length := by
  unfold myReadx at h
  split at h
  · cases h
  · cases h
  · split at h
    · cases h
    · rename_i hne
      cases h
      have hpos : 0 < line.unread.length := List.length_pos_of_ne_nil hne
      rw [List.length_drop]
      omega

/-- The loops over the length bytes and over the header bytes. They differ in one point: when
the read returns 1 the first stops proto timer 8 and the second (`stopOnFailure = false`) does
not. -/
def recvBytes (stopOnFailure : Bool) : ℕ → HsmsLine → ReadResult
  | 0, line => .got [] line
  | m + 1, line =>
      match myReadx line.startTimer8 1 with
      | .failed line => .failed (if stopOnFailure then line.stopTimer8 else line)
      | .expired stale line => .expired stale (if stopOnFailure then line.stopTimer8 else line)
      | .blocked => .blocked
      | .got c line =>
          match recvBytes stopOnFailure m line.stopTimer8 with
          | .got cs line => .got (c ++ cs) line
          | r => r

def maxRead : ℕ := 2048

/-- A call of `recv_hsmsI()`: it returns 0 with a header and a body, it returns 1, or it never
returns. `counts` lists, for each read of the body, the count of bytes still to be read before
it and the number of bytes it returned. -/
inductive RecvResult where
  | received (header body : Bytes) (counts : List (ℕ × ℕ)) (line : HsmsLine)
  | error (line : HsmsLine)
  | blocked

theorem sub32_one_lt {i : ℕ} (hi : i ≠ 0) : sub32 i 1 < i := by
  unfold sub32
  omega

/-- The loop over the body; `i` is the `uint32_t` count of bytes still to be read. When the alarm
ends a read, the 1 is taken for the number of bytes that have been read. -/
def recvBody (header : Bytes) (i : ℕ) (body : Bytes) (counts : List (ℕ × ℕ))
    (line : HsmsLine) : RecvResult :=
  if i = 0 then .received header body counts line
  else
    match _h : myReadx line.startTimer8 maxRead with
    | .expired stale line' =>
        recvBody header (sub32 i 1) (body ++ [stale]) (counts ++ [(i, 1)]) line'.stopTimer8
    | .failed line => .error line.stopTimer8
    | .blocked => .blocked
    | .got data line' =>
        recvBody header (sub32 i data.length) (body ++ data) (counts ++ [(i, data.length)])
          line'.stopTimer8
termination_by (line.unread.length, i)
decreasing_by
  · rw [HsmsLine.stopTimer8_unread, myReadx_expired _h, HsmsLine.startTimer8_unread]
    exact Prod.Lex.right _ (sub32_one_lt (by assumption))
  · exact Prod.Lex.left _ _ (by simpa using myReadx_unread_lt (by decide) _h)

theorem recvBody_eq {i : ℕ} (hi : i ≠ 0) (header body : Bytes) (counts : List (ℕ × ℕ))
    (line : HsmsLine) :
    recvBody header i body counts line =
      match myReadx line.startTimer8 maxRead with
      | .expired stale line' =>
          recvBody header (sub32 i 1) (body ++ [stale]) (counts ++ [(i, 1)]) line'.stopTimer8
      | .failed line => .error line.stopTimer8
      | .blocked => .blocked
      | .got data line' =>
          recvBody header (sub32 i data.length) (body ++ data) (counts ++ [(i, data.length)])
            line'.stopTimer8 := by
  rw [recvBody, if_neg hi]
  split <;> rename_i heq <;> simp only [heq]

theorem recvBody_of_got {i : ℕ} (hi : i ≠ 0) (header body : Bytes) (counts : List (ℕ × ℕ))
    {line line' : HsmsLine} {data : Bytes}
    (h : myReadx line.startTimer8 maxRead = .got data line') :
    recvBody header i body counts line =
      recvBody header (sub32 i data.length) (body ++ data) (counts ++ [(i, data.length)])
        line'.stopTimer8 := by
  rw [recvBody_eq hi, h]

def recvHsmsI (line : HsmsLine) : RecvResult :=
  match recvBytes true 4 line with
  | .failed line => .error line
  | .expired _ line => .error line
  | .blocked => .blocked
  | .got theBytes line =>
      match recvBytes false 10 line with
      | .failed line => .error line
      | .expired _ line => .error line
      | .blocked => .blocked
      | .got header line => recvBody header (sub32 (leValue (swap theBytes)) 10) [] [] line

end ScOpen
