import ScOpen.HsmsCompletion
import ScOpen.HsmsDelivery

/-!
# HSMS transactions over byte streams

What one program writes is bytes to the other one, and each message is read back from them. As long
as no read of a body runs into the next message, the messages are handed over as wholes, so all that
holds of whole messages holds on the connection.
-/

namespace ScOpen

open Dialogues

/-! ## The connection -/

abbrev HsmsConnection : Type := Line HsmsProgram UInt8

def packetBytes (packet : Packet) : Bytes := (sendHsmsI packet.1.val packet.2).flatten

/-- `recv_hsmsI()` returns a message from these bytes and leaves the others. The reads hand over up
to `cut r` bytes, and none of the body takes more than what is left of it. -/
def HsmsReads (bytes : Bytes) (packet : Packet) (rest : Bytes) : Prop :=
  ∃ cut counts line, recvHsmsI (chunkedLine bytes cut 0) =
      .received packet.1.val packet.2 counts line ∧
    (∀ c ∈ counts, c.2 ≤ c.1) ∧ line.unread = rest

def Packet.Fits (packet : Packet) : Prop := packet.2.length + 10 < 2 ^ 32

def Packet.message (packet : Packet) (h : packet.Fits) : HsmsMessage :=
  ⟨packet.1.val, packet.2, packet.1.property, h⟩

/-- A message that is read is the first one of the stream. -/
theorem HsmsReads.first {packet packet' : Packet} (hfits : packet.Fits) {rest rest' : Bytes}
    (h : HsmsReads (packetBytes packet ++ rest) packet' rest') :
    packet' = packet ∧ rest' = rest := by
  obtain ⟨cut, counts, line, hrun, hcounts, hline⟩ := h
  have hsent := recvHsmsI_sent (packet.message hfits) rest cut 0
  have hbody : (packet.message hfits).body.length < 2 ^ 32 := by
    have hlen := (packet.message hfits).length_fits
    omega
  have hreads := hsent.symm.trans hrun
  have hsame : ∃ counts' r', recvBody packet.1.val packet.2.length [] []
      (chunkedLine (packet.2 ++ rest) cut (0 + 14)) =
        .received packet.1.val packet.2 counts' (chunkedLine rest cut r') := by
    by_cases hrest : rest = []
    · subst hrest
      obtain ⟨counts', r', hlast, -⟩ :=
        recvBody_last packet.1.val packet.2 [] [] cut (0 + 14) hbody (List.forall_mem_nil _)
      rw [List.append_nil]
      exact ⟨counts', r', hlast⟩
    · obtain ⟨j, hsum, -⟩ := sum_of_recvBody hrest hbody hreads hcounts
      obtain ⟨counts', hall, -⟩ := recvBody_of_sum packet.1.val packet.2 rest [] [] cut (0 + 14) j
        hbody hsum (List.forall_mem_nil _)
      exact ⟨counts', _, hall⟩
  obtain ⟨counts', r', hsame⟩ := hsame
  obtain ⟨hheader, hbytes, -, rfl⟩ := RecvResult.received.inj (hreads.symm.trans hsame)
  exact ⟨Prod.ext (Subtype.ext hheader) hbytes, hline.symm⟩

def PacketExchange.bytes (c : PacketExchange) : HsmsConnection :=
  ⟨c.left, c.right, c.toRight.flatMap packetBytes, c.toLeft.flatMap packetBytes⟩

section

variable {numbers numbers' : List (UInt32 × HsmsSend)} {c c' : PacketExchange}
  {t : HsmsConnection}

/-- What is under way to the left program has a length that fits. -/
theorem InConversation.fits (h : InConversation numbers numbers' c) :
    ∀ packet ∈ c.toLeft, packet.Fits := by
  intro packet hpacket
  cases hrequest : isRequest packet with
  | true =>
      obtain ⟨haskable, past, answered, asked, hstage, hnumbers⟩ := h.right
      have hmem : packet ∈ c.toLeft.filter isRequest := List.mem_filter.2 ⟨hpacket, hrequest⟩
      have hqueue : c.toLeft.filter isRequest = asked.map request := hstage.toRight
      rw [hqueue] at hmem
      obtain ⟨x, hx, rfl⟩ := List.mem_map.1 hmem
      refine (haskable.right x ?_).length
      rw [hnumbers]
      exact List.mem_append_left _ (List.mem_append_right _ hx)
  | false =>
      obtain ⟨haskable, past, answered, asked, hstage, hnumbers⟩ := h.left
      have hmem : packet ∈ c.toLeft.filter fun packet => !isRequest packet :=
        List.mem_filter.2 ⟨hpacket, by rw [hrequest, Bool.not_false]⟩
      rw [hstage.toLeft] at hmem
      obtain ⟨x, hx, hreply⟩ := List.mem_filterMap.1 hmem
      obtain ⟨reply, hhandler, rfl⟩ := Option.map_eq_some_iff.1 hreply
      refine haskable.answers.length (request x) (List.mem_map_of_mem ?_) reply hhandler
      rw [hnumbers]
      exact List.mem_append_left _ (List.mem_append_left _ (List.mem_append_right _ hx))

end

/-! ## Runs -/

end ScOpen
