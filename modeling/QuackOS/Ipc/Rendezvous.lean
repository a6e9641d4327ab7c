import QuackOS.Ipc.Channel
import QuackOS.Lib.Run

/-!
# Rendezvous on a channel

The history of one channel on which nobody cancels a receive: which messages and which
receivers it took in, and which message it handed to whom.

* `Meeting.Paired` — the two queues hold what the two histories have beyond the pairs made so
  far, and one of them is empty;
* `rendezvous` — the `k`-th message goes to the `k`-th receiver, and a call fails only on a
  full queue of its own kind, changing nothing.
-/

namespace QuackOS.Ipc

open QuackOS.Sche (ThreadId)

/-- A call on the channel. -/
inductive ChannelOp
  | send (tid : ThreadId) (msg : Message)
  | recv (tid : ThreadId)

/-- A channel with its history: the messages and the receivers it accepted, oldest first, and
the receivers that were given a message, with what they were given. -/
structure Meeting where
  inner : ChannelInner
  sent : List Message
  received : List ThreadId
  handed : List (ThreadId × Option Message)

namespace Meeting

/-- A new channel. -/
def new : Meeting := ⟨.new, [], [], []⟩

/-- One call.  A sender that finds a receiver hands it the message; a receiver that finds a
sender is handed the message that waits with it. -/
def step (m : Meeting) : ChannelOp → Meeting
  | .send tid msg =>
    match m.inner.matchSender tid msg with
    | (.ok (.matched r), c) =>
      { m with inner := c, sent := m.sent ++ [msg], handed := m.handed ++ [(r, some msg)] }
    | (.ok .parked, c) => { m with inner := c, sent := m.sent ++ [msg] }
    | (.error _, c) => { m with inner := c }
  | .recv tid =>
    match m.inner.matchReceiver tid with
    | (.ok (.matched e), c) =>
      { m with inner := c, received := m.received ++ [tid], handed := m.handed ++ [(tid, e.msg)] }
    | (.ok .parked, c) => { m with inner := c, received := m.received ++ [tid] }
    | (.error _, c) => { m with inner := c }

/-- The history after a sequence of calls on a new channel. -/
def run (ops : List ChannelOp) : Meeting := Run.exec step new ops

/-- The queues are the lists `rs` and `qs`, one of them empty, and hold what has not been
paired yet. -/
structure Paired (m : Meeting) (rs qs : List WaitEntry) : Prop where
  lists : m.inner.Lists rs qs
  oneSided : rs = [] ∨ qs = []
  received : m.received = m.handed.map Prod.fst ++ rs.map WaitEntry.threadId
  sent : m.sent.map some = m.handed.map Prod.snd ++ qs.map WaitEntry.msg

theorem paired_new : new.Paired [] [] := ⟨ChannelInner.lists_new, .inl rfl, rfl, rfl⟩

end Meeting

namespace ChannelInner

variable {c : ChannelInner} {rs qs : List WaitEntry}

/-- On a full queue a sender is refused, and the channel stays as it is. -/
theorem Lists.matchSender_full (h : c.Lists [] qs) (hlen : waitQueueCap ≤ qs.length)
    (tid : ThreadId) (msg : Message) :
    c.matchSender tid msg = (.error .channelTableFull, c) := by
  have hpush : c.senderQueue.push waitQueueCap
      { threadId := tid, reason := .send, msg := some msg } = none := by
    rw [Ring.push_eq_none_iff, ← Ring.length_toList h.senders, h.senders_eq]
    exact hlen
  unfold matchSender
  rw [Ring.pop_nil h.receivers h.receivers_eq, hpush]

/-- And so is a receiver. -/
theorem Lists.matchReceiver_full (h : c.Lists rs []) (hlen : waitQueueCap ≤ rs.length)
    (tid : ThreadId) : c.matchReceiver tid = (.error .channelTableFull, c) := by
  have hpush : c.receiverQueue.push waitQueueCap
      { threadId := tid, reason := .receive, msg := none } = none := by
    rw [Ring.push_eq_none_iff, ← Ring.length_toList h.receivers, h.receivers_eq]
    exact hlen
  unfold matchReceiver
  rw [Ring.pop_nil h.senders h.senders_eq, hpush]

theorem Lists.length_receivers (h : c.Lists rs qs) : c.receiverQueue.count = rs.length := by
  rw [← Ring.length_toList h.receivers, h.receivers_eq]

theorem Lists.length_senders (h : c.Lists rs qs) : c.senderQueue.count = qs.length := by
  rw [← Ring.length_toList h.senders, h.senders_eq]

end ChannelInner

namespace Meeting

variable {m : Meeting} {rs qs : List WaitEntry}

/-- A message that arrives: it goes to the oldest receiver, or waits behind the others, or is
refused. -/
theorem Paired.send (h : m.Paired rs qs) (tid : ThreadId) (msg : Message) :
    ∃ rs' qs', (m.step (.send tid msg)).Paired rs' qs' := by
  cases rs with
  | cons r rs =>
    have hqs : qs = [] := h.oneSided.resolve_left (by simp)
    subst hqs
    obtain ⟨c, heq, hl⟩ := h.lists.matchSender_cons tid msg
    refine ⟨rs, [], ?_⟩
    rw [step, heq]
    refine ⟨hl, .inr rfl, ?_, ?_⟩
    · simpa using h.received
    · simpa using h.sent
  | nil =>
    rcases Nat.lt_or_ge qs.length waitQueueCap with hlen | hlen
    · obtain ⟨c, heq, hl⟩ := h.lists.matchSender_nil hlen tid msg
      refine ⟨[], qs ++ [{ threadId := tid, reason := .send, msg := some msg }], ?_⟩
      rw [step, heq]
      refine ⟨hl, .inl rfl, h.received, ?_⟩
      simp [h.sent]
    · refine ⟨[], qs, ?_⟩
      rw [step, h.lists.matchSender_full hlen]
      exact h

/-- A receiver that arrives: it takes the oldest message, or waits, or is refused. -/
theorem Paired.recv (h : m.Paired rs qs) (tid : ThreadId) :
    ∃ rs' qs', (m.step (.recv tid)).Paired rs' qs' := by
  cases qs with
  | cons e qs =>
    have hrs : rs = [] := h.oneSided.resolve_right (by simp)
    subst hrs
    obtain ⟨c, heq, hl⟩ := h.lists.matchReceiver_cons tid
    refine ⟨[], qs, ?_⟩
    rw [step, heq]
    refine ⟨hl, .inl rfl, ?_, ?_⟩
    · simp [h.received]
    · simpa using h.sent
  | nil =>
    rcases Nat.lt_or_ge rs.length waitQueueCap with hlen | hlen
    · obtain ⟨c, heq, hl⟩ := h.lists.matchReceiver_nil hlen tid
      refine ⟨rs ++ [{ threadId := tid, reason := .receive, msg := none }], [], ?_⟩
      rw [step, heq]
      refine ⟨hl, .inr rfl, ?_, h.sent⟩
      simp [h.received]
    · refine ⟨rs, [], ?_⟩
      rw [step, h.lists.matchReceiver_full hlen]
      exact h

theorem paired_step (m : Meeting) (op : ChannelOp) (h : ∃ rs qs, m.Paired rs qs) :
    ∃ rs qs, (m.step op).Paired rs qs := by
  obtain ⟨rs, qs, h⟩ := h
  cases op with
  | send tid msg => exact h.send tid msg
  | recv tid => exact h.recv tid

theorem paired_run (ops : List ChannelOp) : ∃ rs qs, (run ops).Paired rs qs :=
  Run.exec_invariant paired_step ⟨[], [], paired_new⟩ ops

/-- What was handed out is the two histories side by side. -/
theorem Paired.handed_eq (h : m.Paired rs qs) : m.handed = m.received.zip (m.sent.map some) := by
  have hlen : (m.handed.map Prod.fst).length = (m.handed.map Prod.snd).length := by simp
  have hzip : (m.handed.map Prod.fst).zip (m.handed.map Prod.snd) = m.handed :=
    (List.zip_of_prod rfl rfl).symm
  rw [h.received, h.sent, List.zip_append hlen, hzip]
  rcases h.oneSided with rfl | rfl
  · simp
  · simp

/-- A message is refused only when the queue of senders is full, and nothing changes. -/
theorem Paired.send_error (h : m.Paired rs qs) {tid : ThreadId} {msg : Message} {err : IpcError}
    {c : ChannelInner} (he : m.inner.matchSender tid msg = (.error err, c)) :
    c = m.inner ∧ m.inner.senderQueue.count = waitQueueCap := by
  cases rs with
  | cons r rs =>
    obtain ⟨c', heq, -⟩ := h.lists.matchSender_cons tid msg
    rw [heq] at he
    cases he
  | nil =>
    rcases Nat.lt_or_ge qs.length waitQueueCap with hlen | hlen
    · obtain ⟨c', heq, -⟩ := h.lists.matchSender_nil hlen tid msg
      rw [heq] at he
      cases he
    · rw [h.lists.matchSender_full hlen] at he
      cases he
      refine ⟨rfl, le_antisymm h.lists.senders.count_le ?_⟩
      rw [h.lists.length_senders]
      exact hlen

/-- A receiver is refused only when the queue of receivers is full, and nothing changes. -/
theorem Paired.recv_error (h : m.Paired rs qs) {tid : ThreadId} {err : IpcError}
    {c : ChannelInner} (he : m.inner.matchReceiver tid = (.error err, c)) :
    c = m.inner ∧ m.inner.receiverQueue.count = waitQueueCap := by
  cases qs with
  | cons e qs =>
    obtain ⟨c', heq, -⟩ := h.lists.matchReceiver_cons tid
    rw [heq] at he
    cases he
  | nil =>
    rcases Nat.lt_or_ge rs.length waitQueueCap with hlen | hlen
    · obtain ⟨c', heq, -⟩ := h.lists.matchReceiver_nil hlen tid
      rw [heq] at he
      cases he
    · rw [h.lists.matchReceiver_full hlen] at he
      cases he
      refine ⟨rfl, le_antisymm h.lists.receivers.count_le ?_⟩
      rw [h.lists.length_receivers]
      exact hlen

end Meeting

/-- **Rendezvous.**  After any sequence of calls on a new channel one of the wait queues is
empty; the messages handed out so far, in order, are the first accepted messages, each handed
to the accepted receiver of the same number; what is not handed out waits in its queue; and a
call that fails leaves the channel as it is, and finds 32 waiters of its own kind. -/
theorem rendezvous (ops : List ChannelOp) :
    ((Meeting.run ops).inner.receiverQueue.count = 0 ∨
      (Meeting.run ops).inner.senderQueue.count = 0) ∧
    (Meeting.run ops).handed = (Meeting.run ops).received.zip ((Meeting.run ops).sent.map some) ∧
    (Meeting.run ops).inner.senderQueue.count =
      (Meeting.run ops).sent.length - (Meeting.run ops).handed.length ∧
    (Meeting.run ops).inner.receiverQueue.count =
      (Meeting.run ops).received.length - (Meeting.run ops).handed.length ∧
    (∀ tid msg err c, (Meeting.run ops).inner.matchSender tid msg = (.error err, c) →
      c = (Meeting.run ops).inner ∧
        (Meeting.run ops).inner.senderQueue.count = waitQueueCap) ∧
    (∀ tid err c, (Meeting.run ops).inner.matchReceiver tid = (.error err, c) →
      c = (Meeting.run ops).inner ∧
        (Meeting.run ops).inner.receiverQueue.count = waitQueueCap) := by
  obtain ⟨rs, qs, h⟩ := Meeting.paired_run ops
  have hsent := congrArg List.length h.sent
  have hreceived := congrArg List.length h.received
  simp only [List.length_map, List.length_append] at hsent hreceived
  refine ⟨?_, h.handed_eq, ?_, ?_, fun _ _ _ _ he => h.send_error he,
    fun _ _ _ he => h.recv_error he⟩
  · rw [h.lists.length_receivers, h.lists.length_senders]
    rcases h.oneSided with rfl | rfl
    · exact .inl rfl
    · exact .inr rfl
  · rw [h.lists.length_senders]
    omega
  · rw [h.lists.length_receivers]
    omega

end QuackOS.Ipc
