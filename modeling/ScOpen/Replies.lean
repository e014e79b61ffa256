import ScOpen.Runs
import ScOpen.SystemBytes

/-!
# Replies to primary messages

Handlers of messages that arrive on any number of connections run, suspend and are resumed in any
order, and inside each other when a send meets contention. The system bytes of the last primary
message are kept in one place for all of them, and a reply takes them from there.
-/

namespace ScOpen

/-! ## Handlers -/

def isPrimary (header : MessageHeader) : Bool := (header.val.getD 3 0).toNat % 2 = 1

/-- What is sent for a reply, once it is encoded: the blocks of `send_secsII()`, whose loop starts
with no data and with whatever block number there is, or the message of `send_hsmsII()`. -/
inductive ReplyCall where
  | secs (opts : SecsOptions) (head : MessageHead) (message : Bytes) (blockNum : ℕ) (line : SecsLine)
  | hsms (head : MessageHead) (message : Bytes)

def ReplyCall.sent (systemBytes : ℕ) : ReplyCall → List Bytes
  | .secs opts head message blockNum line =>
      (blockLoop opts head systemBytes message 0 blockNum { line with blocks := [] }).2.blocks
  | .hsms head message => [hsmsHeader head systemBytes ++ message]

structure Reply where
  handler : ℕ
  sent : List Bytes

/-- `saved_system_bytes`, and the handlers: `started` has the primary message of each one that was
started by such a message, `running` has the innermost first. -/
structure Handlers where
  savedSystemBytes : ℕ
  started : List (Option MessageHeader)
  running : List ℕ
  suspended : List ℕ
  replies : List Reply

def Handlers.start : Handlers where
  savedSystemBytes := 0
  started := [none]
  running := [0]
  suspended := []
  replies := []

inductive HandlerStep where
  /-- A message is received; a secondary message resumes a handler, or is discarded. -/
  | receive (proto : SecsProtocol) (header : MessageHeader) (resumed : Option ℕ)
  /-- A handler is started by a timer or by a message of another protocol. -/
  | start
  /-- A handler is resumed by a timer. -/
  | resume (handler : ℕ)
  | suspend
  | finish
  | sendReply (call : ReplyCall)

def Handlers.resume (s : Handlers) (handler : ℕ) : Option Handlers :=
  if handler ∈ s.suspended then
    some { s with running := handler :: s.running, suspended := s.suspended.erase handler }
  else none

def Handlers.step (s : Handlers) : HandlerStep → Option Handlers
  | .receive proto header resumed =>
      if isPrimary header then
        some { s with
          savedSystemBytes := recvSystemBytes proto header
          started := s.started ++ [some header]
          running := s.started.length :: s.running }
      else
        match resumed with
        | none => some s
        | some handler => s.resume handler
  | .start => some { s with
      started := s.started ++ [none]
      running := s.started.length :: s.running }
  | .resume handler => s.resume handler
  | .suspend =>
      match s.running with
      | [] => none
      | handler :: running =>
          some { s with running := running, suspended := handler :: s.suspended }
  | .finish =>
      match s.running with
      | [] => none
      | _ :: running => some { s with running := running }
  | .sendReply call =>
      match s.running with
      | [] => none
      | handler :: _ =>
          some { s with replies := s.replies ++ [⟨handler, call.sent s.savedSystemBytes⟩] }

/-! ## Replies with the right system bytes -/

/-- The reply of a handler carries the system bytes of the message that started the handler. -/
def Handlers.Matches (s : Handlers) (reply : Reply) : Prop :=
  ∀ header, s.started[reply.handler]? = some (some header) →
    ∀ b ∈ reply.sent, systemBytesField b = systemBytesField header.val

def Handlers.lastPrimary (s : Handlers) : Option MessageHeader := (s.started.filterMap id).getLast?

/-- The last primary message has the system bytes of the one that started the handler which sends
the reply. -/
def Handlers.InTurn (s : Handlers) : HandlerStep → Prop
  | .sendReply _ => ∀ handler header last, s.running.head? = some handler →
      s.started[handler]? = some (some header) → s.lastPrimary = some last →
      systemBytesField last.val = systemBytesField header.val
  | _ => True

/-- `saved_system_bytes` comes from the last primary message. -/
def Handlers.SavesLast (s : Handlers) : Prop :=
  ∀ last, s.lastPrimary = some last → s.savedSystemBytes = beValue (systemBytesField last.val)

theorem ReplyCall.sent_systemBytes (call : ReplyCall) (systemBytes : ℕ) :
    ∀ b ∈ call.sent systemBytes, systemBytesField b = beBytes 4 systemBytes := by
  intro b hb
  cases call with
  | hsms head message =>
      rw [List.mem_singleton.1 hb]
      exact systemBytesField_hsmsHeader head systemBytes message
  | secs opts head message blockNum line =>
      rcases blockLoop_blocks opts head systemBytes message 0 blockNum _ b hb with hb | hb
      · cases hb
      · exact hb

/-! ## The invariant -/

structure Handlers.Consistent (s : Handlers) : Prop where
  saves_last : s.SavesLast
  running_lt : ∀ handler ∈ s.running, handler < s.started.length
  suspended_lt : ∀ handler ∈ s.suspended, handler < s.started.length
  replies_lt : ∀ reply ∈ s.replies, reply.handler < s.started.length

theorem consistent_handlers_start : Handlers.start.Consistent where
  saves_last := by simp [Handlers.SavesLast, Handlers.lastPrimary, Handlers.start]
  running_lt := by simp [Handlers.start]
  suspended_lt := by simp [Handlers.start]
  replies_lt := by simp [Handlers.start]

/-- Another handler is started. -/
theorem Handlers.Consistent.started {s : Handlers} (hs : s.Consistent) {systemBytes : ℕ}
    {primary : Option MessageHeader} (hprimary : match primary with
      | none => systemBytes = s.savedSystemBytes
      | some header => systemBytes = beValue (systemBytesField header.val)) :
    ({ s with
       savedSystemBytes := systemBytes
       started := s.started ++ [primary]
       running := s.started.length :: s.running } : Handlers).Consistent := by
  have hlonger : ∀ {handler}, handler < s.started.length →
      handler < (s.started ++ [primary]).length := by
    intro handler h
    rw [List.length_append]
    exact h.trans (Nat.lt_succ_self _)
  constructor
  case saves_last =>
    intro last hlast
    cases primary with
    | none =>
        obtain rfl := hprimary
        refine hs.saves_last last ?_
        rw [← hlast]
        simp [Handlers.lastPrimary]
    | some header =>
        obtain rfl := hprimary
        have hheader : header = last := by simpa [Handlers.lastPrimary] using hlast
        rw [hheader]
  case running_lt =>
    intro handler hhandler
    rcases List.mem_cons.1 hhandler with rfl | hhandler
    · simp
    · exact hlonger (hs.running_lt handler hhandler)
  case suspended_lt => exact fun handler hhandler => hlonger (hs.suspended_lt handler hhandler)
  case replies_lt => exact fun reply hreply => hlonger (hs.replies_lt reply hreply)

theorem Handlers.Consistent.resume {s s' : Handlers} (hs : s.Consistent) {handler : ℕ}
    (h : s.resume handler = some s') : s'.Consistent := by
  unfold Handlers.resume at h
  split at h
  · rename_i hmem
    cases h
    refine ⟨hs.saves_last, ?_, ?_, hs.replies_lt⟩
    · intro handler' hhandler
      rcases List.mem_cons.1 hhandler with rfl | hhandler
      · exact hs.suspended_lt _ hmem
      · exact hs.running_lt _ hhandler
    · exact fun handler' hhandler => hs.suspended_lt _ (List.mem_of_mem_erase hhandler)
  · cases h

theorem Handlers.Consistent.step {s s' : Handlers} (hs : s.Consistent) {a : HandlerStep}
    (h : s.step a = some s') : s'.Consistent := by
  cases a with
  | receive proto header resumed =>
      simp only [Handlers.step] at h
      split at h
      · cases h
        exact hs.started (recvSystemBytes_eq proto header)
      · split at h
        · cases h
          exact hs
        · exact hs.resume h
  | start =>
      cases h
      exact hs.started rfl
  | resume handler => exact hs.resume h
  | suspend =>
      simp only [Handlers.step] at h
      split at h
      · cases h
      · rename_i handler running hrunning
        cases h
        have hlt := hs.running_lt
        rw [hrunning] at hlt
        refine ⟨hs.saves_last, fun i hi => hlt i (List.mem_cons_of_mem _ hi), ?_, hs.replies_lt⟩
        intro i hi
        rcases List.mem_cons.1 hi with rfl | hi
        · exact hlt _ List.mem_cons_self
        · exact hs.suspended_lt i hi
  | finish =>
      simp only [Handlers.step] at h
      split at h
      · cases h
      · rename_i handler running hrunning
        cases h
        have hlt := hs.running_lt
        rw [hrunning] at hlt
        exact ⟨hs.saves_last, fun i hi => hlt i (List.mem_cons_of_mem _ hi), hs.suspended_lt,
          hs.replies_lt⟩
  | sendReply call =>
      simp only [Handlers.step] at h
      split at h
      · cases h
      · rename_i handler running hrunning
        cases h
        refine ⟨hs.saves_last, hs.running_lt, hs.suspended_lt, ?_⟩
        intro reply hreply
        rcases List.mem_append.1 hreply with hreply | hreply
        · exact hs.replies_lt reply hreply
        · rw [List.mem_singleton.1 hreply]
          exact hs.running_lt handler (by rw [hrunning]; exact List.mem_cons_self)

/-! ## Replies over a run -/

/-- A reply keeps its system bytes, and its handler the message that started it. -/
theorem Handlers.Consistent.matches_step {s s' : Handlers} (hs : s.Consistent) {a : HandlerStep}
    (h : s.step a = some s') : ∀ reply ∈ s.replies, s'.Matches reply ↔ s.Matches reply := by
  intro reply hreply
  have hstarted : s'.started[reply.handler]? = s.started[reply.handler]? := by
    have hresume : ∀ handler, s.resume handler = some s' → s'.started = s.started := by
      intro handler h
      unfold Handlers.resume at h
      split at h <;> cases h
      rfl
    cases a with
    | receive proto header resumed =>
        simp only [Handlers.step] at h
        split at h
        · cases h
          exact List.getElem?_append_left (hs.replies_lt reply hreply)
        · split at h
          · cases h
            rfl
          · rw [hresume _ h]
    | start =>
        cases h
        exact List.getElem?_append_left (hs.replies_lt reply hreply)
    | resume handler => rw [hresume handler h]
    | suspend =>
        simp only [Handlers.step] at h
        split at h <;> cases h
        rfl
    | finish =>
        simp only [Handlers.step] at h
        split at h <;> cases h
        rfl
    | sendReply call =>
        simp only [Handlers.step] at h
        split at h <;> cases h
        rfl
  rw [Handlers.Matches, Handlers.Matches, hstarted]

theorem Handlers.step_replies {s s' : Handlers} {a : HandlerStep} (h : s.step a = some s') :
    s'.replies = s.replies ∨ ∃ call handler running, a = .sendReply call ∧
      s.running = handler :: running ∧
      s' = { s with replies := s.replies ++ [⟨handler, call.sent s.savedSystemBytes⟩] } := by
  have hresume : ∀ handler, s.resume handler = some s' → s'.replies = s.replies := by
    intro handler h
    unfold Handlers.resume at h
    split at h <;> cases h
    rfl
  cases a with
  | receive proto header resumed =>
      simp only [Handlers.step] at h
      split at h
      · cases h
        exact .inl rfl
      · split at h
        · cases h
          exact .inl rfl
        · exact .inl (hresume _ h)
  | start =>
      cases h
      exact .inl rfl
  | resume handler => exact .inl (hresume handler h)
  | suspend =>
      simp only [Handlers.step] at h
      split at h <;> cases h
      exact .inl rfl
  | finish =>
      simp only [Handlers.step] at h
      split at h <;> cases h
      exact .inl rfl
  | sendReply call =>
      simp only [Handlers.step] at h
      split at h
      · cases h
      · rename_i handler running hrunning
        cases h
        exact .inr ⟨call, handler, running, rfl, hrunning, rfl⟩

theorem Handlers.exists_last {s : Handlers} {handler : ℕ} {header : MessageHeader}
    (h : s.started[handler]? = some (some header)) : ∃ last, s.lastPrimary = some last := by
  have hmem : header ∈ s.started.filterMap id :=
    List.mem_filterMap.2 ⟨some header, List.mem_of_getElem? h, rfl⟩
  exact ⟨_, List.getLast?_eq_some_getLast (List.ne_nil_of_mem hmem)⟩

/-- The next reply matches when it is in turn, and only then if anything of it is sent. -/
theorem Handlers.Consistent.matches_reply {s : Handlers} (hs : s.Consistent) (call : ReplyCall)
    {handler : ℕ} {running : List ℕ} (hrunning : s.running = handler :: running) :
    (s.InTurn (.sendReply call) → s.Matches ⟨handler, call.sent s.savedSystemBytes⟩) ∧
      (call.sent s.savedSystemBytes ≠ [] →
        s.Matches ⟨handler, call.sent s.savedSystemBytes⟩ → s.InTurn (.sendReply call)) := by
  have hfield : ∀ last, s.lastPrimary = some last →
      ∀ b ∈ call.sent s.savedSystemBytes, systemBytesField b = systemBytesField last.val := by
    intro last hlast b hb
    have hvalue := beBytes_beValue (systemBytesField last.val)
    rw [length_systemBytesField] at hvalue
    rw [call.sent_systemBytes _ b hb, hs.saves_last last hlast, hvalue]
  constructor
  · intro hturn header hstarted b hb
    obtain ⟨last, hlast⟩ := exists_last hstarted
    rw [hfield last hlast b hb]
    exact hturn handler header last (by rw [hrunning]; rfl) hstarted hlast
  · intro hsent hmatches handler' header last hhead hstarted hlast
    rw [hrunning] at hhead
    obtain rfl := Option.some.inj hhead
    obtain ⟨b, hb⟩ := List.exists_mem_of_ne_nil _ hsent
    rw [← hfield last hlast b hb]
    exact hmatches header hstarted b hb

/-- In every run whose replies are in turn, every reply carries the system bytes of the primary
message whose handler sends it, and a further reply does so exactly when it is in turn. -/
theorem replies_carry_system_bytes {s : Handlers}
    (h : Runs.Reaches Handlers.step Handlers.InTurn (fun s => s = .start) s) :
    (∀ reply ∈ s.replies, s.Matches reply) ∧
      ∀ call s', s.step (.sendReply call) = some s' → call.sent s.savedSystemBytes ≠ [] →
        (s.InTurn (.sendReply call) ↔ ∀ reply ∈ s'.replies, s'.Matches reply) := by
  let inv : Handlers → Prop := fun s => s.Consistent ∧ ∀ reply ∈ s.replies, s.Matches reply
  have hinvariant : inv s := by
    refine h.invariant ?_ ?_
    · rintro _ rfl
      exact ⟨consistent_handlers_start, by simp [Handlers.start]⟩
    · rintro s a s' ⟨hs, hmatches⟩ hok hstep
      refine ⟨hs.step hstep, ?_⟩
      intro reply hreply
      rcases Handlers.step_replies hstep with heq | ⟨call, handler, running, rfl, hrunning, rfl⟩
      · rw [heq] at hreply
        exact (hs.matches_step hstep reply hreply).2 (hmatches reply hreply)
      · rcases List.mem_append.1 hreply with hreply | hreply
        · exact hmatches reply hreply
        · rw [List.mem_singleton.1 hreply]
          exact (hs.matches_reply call hrunning).1 hok
  obtain ⟨hs, hmatches⟩ := hinvariant
  refine ⟨hmatches, ?_⟩
  intro call s' hstep hsent
  rcases Handlers.step_replies hstep with heq | ⟨call', handler, running, hcall, hrunning, rfl⟩
  · simp only [Handlers.step] at hstep
    split at hstep <;> cases hstep
    simp at heq
  · cases hcall
    constructor
    · intro hturn reply hreply
      rcases List.mem_append.1 hreply with hreply | hreply
      · exact hmatches reply hreply
      · rw [List.mem_singleton.1 hreply]
        exact (hs.matches_reply call hrunning).1 hturn
    · intro hall
      exact (hs.matches_reply call hrunning).2 hsent
        (hall _ (List.mem_append_right _ (List.mem_singleton_self _)))

/-! ## Two connections -/

def eventHeader (systemByte : UInt8) : MessageHeader :=
  ⟨[0, 1, 0x86, 11, 0, 0, 0, 0, 0, systemByte], rfl⟩

def repliesAtOnce : List HandlerStep :=
  [.finish, .receive .hsms (eventHeader 7) none, .sendReply (.hsms ⟨6, 12, 1, 0⟩ []), .suspend,
    .receive .hsms (eventHeader 8) none, .sendReply (.hsms ⟨6, 12, 1, 0⟩ [0x01, 0]), .finish,
    .resume 1]

theorem replies_carry_system_bytes_at_once :
    ∃ s, repliesAtOnce.foldlM Handlers.step .start = some s ∧
      s.replies.map Reply.handler = [1, 2] ∧ (∀ reply ∈ s.replies, s.Matches reply) ∧
        ∀ call s', s.step (.sendReply call) = some s' → call.sent s.savedSystemBytes ≠ [] →
          (s.InTurn (.sendReply call) ↔ ∀ reply ∈ s'.replies, s'.Matches reply) := by
  have hadmits : Runs.Admits Handlers.step Handlers.InTurn .start repliesAtOnce := by
    refine .cons trivial rfl (.cons trivial rfl (.cons ?_ rfl (.cons trivial rfl (.cons trivial rfl
      (.cons ?_ rfl (.cons trivial rfl (.cons trivial rfl trivial)))))))
    all_goals
      intro handler header last hrunning hheader hlast
      cases hrunning
      cases hheader
      cases hlast
      rfl
  have hrun : ∃ s, repliesAtOnce.foldlM Handlers.step .start = some s ∧
      s.replies.map Reply.handler = [1, 2] := ⟨_, rfl, rfl⟩
  obtain ⟨s, hs, hhandlers⟩ := hrun
  have hstart : Runs.Reaches Handlers.step Handlers.InTurn (fun s => s = .start) .start :=
    .start rfl
  exact ⟨s, hs, hhandlers, replies_carry_system_bytes (hstart.admits hadmits hs)⟩

/-- A handler is suspended, the handler of another connection runs, and the first one replies when
it is resumed. -/
theorem replies_not_always_carry :
    ∃ s, Runs.Reaches Handlers.step (fun _ _ => True) (fun s => s = .start) s ∧
      ∃ reply ∈ s.replies, ¬ s.Matches reply := by
  have hrun : ∃ s, [HandlerStep.finish, .receive .hsms (eventHeader 7) none, .suspend,
      .receive .hsms (eventHeader 8) none, .finish, .resume 1,
      .sendReply (.hsms ⟨6, 12, 1, 0⟩ [])].foldlM Handlers.step Handlers.start = some s ∧
      s.replies = [⟨1, [hsmsHeader ⟨6, 12, 1, 0⟩ 8]⟩] ∧
      s.started[1]? = some (some (eventHeader 7)) := ⟨_, rfl, rfl, rfl⟩
  obtain ⟨s, hrun, hreplies, hstarted⟩ := hrun
  refine ⟨s, Runs.Reaches.run (.start rfl) hrun, _, by rw [hreplies]; exact List.mem_singleton_self _,
    ?_⟩
  intro hmatches
  have hsame := hmatches (eventHeader 7) hstarted _ (List.mem_singleton_self _)
  have hfields : ([0, 0, 0, 8] : Bytes) = [0, 0, 0, 7] := hsame
  simp at hfields

end ScOpen
