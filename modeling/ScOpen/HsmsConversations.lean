import ScOpen.AwaitedReplies
import ScOpen.Dialogues
import ScOpen.MessageHeaders
import ScOpen.Replies

/-!
# HSMS transactions between two programs

Two programs are connected, and each has primary messages to send. Whenever it is back in its main
loop a program may send its next one, or receive what the other one has sent: the handler of a
primary message answers before it waits for anything, and a reply lets the program go on where it
waits. Here the messages are handed over as wholes.
-/

namespace ScOpen

open Dialogues

/-! ## The programs -/

abbrev Packet : Type := MessageHeader × Bytes

def dataPacket (head : MessageHead) (systemBytes : ℕ) (body : Bytes) : Packet :=
  (⟨hsmsHeader head systemBytes, rfl⟩, body)

structure HsmsSend where
  head : MessageHead
  body : Bytes
  programIdx : ℕ
  t3 : ℕ
  timeoutMsg : Bytes

def secsIncSystemBytes (systemBytes : UInt32) : UInt32 :=
  if systemBytes = 0 then 1 else systemBytes + 1

/-- Beside the tables: what is to be sent, the messages whose handlers were started, the places at
which the program was resumed with the replies, and the messages that were discarded. -/
structure HsmsProgram where
  handler : Packet → Option (MessageHead × Bytes)
  systemBytes : UInt32
  savedSystemBytes : ℕ
  station : Station
  unsent : List HsmsSend
  started : List Packet
  resumed : List (ℕ × Packet)
  discarded : List Packet

def HsmsProgram.start (handler : Packet → Option (MessageHead × Bytes)) (systemBytes : UInt32)
    (clock : ℕ) (unsent : List HsmsSend) : HsmsProgram where
  handler := handler
  systemBytes := systemBytes
  savedSystemBytes := 0
  station := .start clock
  unsent := unsent
  started := []
  resumed := []
  discarded := []

/-- `send_hsms()` for the next message; `none` when the process ends for want of a timer or an
entry. -/
def HsmsProgram.sendHsms (p : HsmsProgram) : Option (HsmsProgram × Packet) :=
  match p.unsent with
  | [] => none
  | send :: unsent =>
      let systemBytes := secsIncSystemBytes p.systemBytes
      let packet := dataPacket send.head systemBytes.toNat send.body
      let p := { p with systemBytes := systemBytes, unsent := unsent }
      if send.head.waitBit = 0 then some (p, packet)
      else
        match p.station.step (.opening systemBytes send.programIdx send.t3 send.timeoutMsg 0) with
        | none => none
        | some station => some ({ p with station := station }, packet)

/-- `recv_hsms()` and what its caller does with the message: the program with the messages it
writes; `none` when the process ends over an unknown type. -/
def HsmsProgram.recvHsms (p : HsmsProgram) (packet : Packet) : Option (HsmsProgram × List Packet) :=
  let header := packet.1
  let stype := header.val.getD 5 0
  if stype = 0 then
    let systemBytes := recvSystemBytes .hsms header
    if isPrimary header then
      let p := { p with savedSystemBytes := systemBytes, started := p.started ++ [packet] }
      -- The handler's `send_hsms_reply()` reads the saved system bytes again.
      some (p, ((p.handler packet).map fun reply =>
        dataPacket reply.1 p.savedSystemBytes reply.2).toList)
    else
      match (openTransTableDel (UInt32.ofNat systemBytes) p.station.clock p.station.openTransTable
          p.station.timers).1 with
      | none => some ({ p with discarded := p.discarded ++ [packet] }, [])
      | some programIdx =>
          match p.station.step (.reply (UInt32.ofNat systemBytes)) with
          | none => none
          | some station => some
              ({ p with station := station, resumed := p.resumed ++ [(programIdx, packet)] }, [])
  else if stype = 1 then
    some (p, [(⟨header.val.set 5 2, by rw [List.length_set, header.property]⟩, [])])
  else if stype = 5 then
    some (p, [(⟨header.val.set 5 6, by rw [List.length_set, header.property]⟩, [])])
  else if stype = 9 then some (p, [])
  else none

/-! ## Runs -/

abbrev PacketExchange : Type := Line HsmsProgram Packet

def PacketSends (s t : PacketExchange) : Prop :=
  ∃ packet, s.left.sendHsms = some (t.left, packet) ∧ t.right = s.right ∧
    t.toRight = s.toRight ++ [packet] ∧ t.toLeft = s.toLeft

def PacketReceives (s t : PacketExchange) : Prop :=
  ∃ packet written, s.toLeft = packet :: t.toLeft ∧
    s.left.recvHsms packet = some (t.left, written) ∧ t.right = s.right ∧
    t.toRight = s.toRight ++ written

def HsmsPauses {β : Type} (s t : Line HsmsProgram β) : Prop :=
  ∃ seconds, (∀ id transaction, s.left.station.opened[id]? = some transaction →
      ¬ s.left.station.Completed id → s.left.station.clock + seconds < transaction.due) ∧
    t = { s with left := { s.left with
      station := { s.left.station with clock := s.left.station.clock + seconds } } }

def PacketWorks : PacketExchange → PacketExchange → Prop :=
  OfBoth fun s t => PacketSends s t ∨ PacketReceives s t

/-- So many messages are sent or received, in whatever order, and time passes in between. -/
inductive PacketRun : ℕ → PacketExchange → PacketExchange → Prop
  | refl (s : PacketExchange) : PacketRun 0 s s
  | work {n : ℕ} {s t u : PacketExchange} (h : PacketRun n s t) (hwork : PacketWorks t u) :
      PacketRun (n + 1) s u
  | pause {n : ℕ} {s t u : PacketExchange} (h : PacketRun n s t) (hpause : OfBoth HsmsPauses t u) :
      PacketRun n s u

/-! ## What is sent -/

def numberedSends : UInt32 → List HsmsSend → List (UInt32 × HsmsSend)
  | _, [] => []
  | systemBytes, send :: sends =>
      (secsIncSystemBytes systemBytes, send) :: numberedSends (secsIncSystemBytes systemBytes) sends

def request (x : UInt32 × HsmsSend) : Packet := dataPacket x.2.head x.1.toNat x.2.body

def replyTo (handler : Packet → Option (MessageHead × Bytes)) (packet : Packet) : Option Packet :=
  (handler packet).map fun reply =>
    dataPacket reply.1 (recvSystemBytes .hsms packet.1) reply.2

def resumption (handler : Packet → Option (MessageHead × Bytes)) (x : UInt32 × HsmsSend) :
    Option (ℕ × Packet) :=
  (replyTo handler (request x)).map fun reply => (x.2.programIdx, reply)

structure HsmsSend.Right (send : HsmsSend) : Prop where
  fits : send.head.Fits
  wait : send.head.waitBit ≤ 1
  odd : send.head.function % 2 = 1
  t3_pos : 0 < send.t3
  timeoutMsg : send.timeoutMsg.length < 128
  length : send.body.length + 10 < 2 ^ 32

/-- The handler answers, with secondary messages whose length fits, those of the messages that ask
for it. -/
structure Answers (handler : Packet → Option (MessageHead × Bytes)) (packets : List Packet) :
    Prop where
  replies : ∀ packet ∈ packets,
    ((recvHead packet.1).waitBit ≠ 0 ↔ ∃ reply, handler packet = some reply)
  even : ∀ packet ∈ packets, ∀ reply, handler packet = some reply → reply.1.function % 2 = 0
  length : ∀ packet ∈ packets, ∀ reply, handler packet = some reply →
    reply.2.length + 10 < 2 ^ 32

def HsmsProgram.requests (p : HsmsProgram) : List Packet :=
  (numberedSends p.systemBytes p.unsent).map request

structure Asks {β : Type} (s : Line HsmsProgram β) : Prop where
  start : ∃ handler systemBytes clock unsent, s.left = .start handler systemBytes clock unsent
  quiet : s.toRight = []
  sends : ∀ send ∈ s.left.unsent, send.Right
  numbers : s.left.systemBytes.toNat + s.left.unsent.length < 2 ^ 32
  answers : Answers s.right.handler s.left.requests

end ScOpen
