import QuackOS.Ipc.Message
import QuackOS.Lib.Ring

/-!
# Channels and notifications

The model of `kernel/ipc/channel.rs` and `kernel/ipc/notification.rs`: two threads meet on a
channel, whoever comes first is parked in a ring of 32 entries; a notification is a binary
semaphore with a ring of waiting threads.

`remove_by_tid` can leave a ring with a hole at its head, so nothing is said here about order.
What survives every operation is that a thread stands in a ring at most once (`Wf`), and the
spec lemmas say which threads an operation puts in or takes out.
-/

namespace QuackOS.Ipc

open QuackOS.Sche (ThreadId)

/-- `WAIT_QUEUE_CAP`, of both kinds of queue. -/
def waitQueueCap : ℕ := 32

/-- `BlockReason`. -/
inductive BlockReason
  | send
  | receive
  | call
  deriving DecidableEq, Repr

/-- A thread parked on a channel; a sender's message waits with it. -/
structure WaitEntry where
  threadId : ThreadId
  reason : BlockReason
  msg : Option Message

/-- `ChannelInner`. -/
structure ChannelInner where
  receiverQueue : Ring WaitEntry
  senderQueue : Ring WaitEntry

/-- `SendMatch`. -/
inductive SendMatch
  | matched (receiver : ThreadId)
  | parked

/-- `RecvMatch`. -/
inductive RecvMatch
  | matched (sender : WaitEntry)
  | parked

namespace ChannelInner

/-- `ChannelInner::new`. -/
def new : ChannelInner := { receiverQueue := .empty, senderQueue := .empty }

/-- `match_sender`. -/
def matchSender (c : ChannelInner) (tid : ThreadId) (msg : Message) :
    Except IpcError SendMatch × ChannelInner :=
  match c.receiverQueue.pop waitQueueCap with
  | (some receiver, q) => (.ok (.matched receiver.threadId), { c with receiverQueue := q })
  | (none, q) =>
      match c.senderQueue.push waitQueueCap { threadId := tid, reason := .send, msg := some msg } with
      | none => (.error .channelTableFull, { c with receiverQueue := q })
      | some q' => (.ok .parked, { receiverQueue := q, senderQueue := q' })

/-- `match_receiver`. -/
def matchReceiver (c : ChannelInner) (tid : ThreadId) :
    Except IpcError RecvMatch × ChannelInner :=
  match c.senderQueue.pop waitQueueCap with
  | (some sender, q) => (.ok (.matched sender), { c with senderQueue := q })
  | (none, q) =>
      match c.receiverQueue.push waitQueueCap { threadId := tid, reason := .receive, msg := none } with
      | none => (.error .channelTableFull, { c with senderQueue := q })
      | some q' => (.ok .parked, { receiverQueue := q', senderQueue := q })

/-- `cancel_receive`, through `remove_by_tid`. -/
def cancelReceive (c : ChannelInner) (tid : ThreadId) : ChannelInner :=
  { c with receiverQueue := c.receiverQueue.removeBy waitQueueCap fun e => e.threadId == tid }

/-- Some entry of the ring is the thread's. -/
def Waits (q : Ring WaitEntry) (tid : ThreadId) : Prop := ∃ e, q.Holds e ∧ e.threadId = tid

/-- No thread stands twice in a queue. -/
structure Wf (c : ChannelInner) : Prop where
  receivers : Ring.Distinct waitQueueCap WaitEntry.threadId c.receiverQueue
  senders : Ring.Distinct waitQueueCap WaitEntry.threadId c.senderQueue

theorem wf_new : new.Wf := ⟨Ring.distinct_empty (by decide), Ring.distinct_empty (by decide)⟩

end ChannelInner

open ChannelInner (Waits)

/-! ## One queue -/

section Queue

variable {q : Ring WaitEntry} (h : Ring.Distinct waitQueueCap WaitEntry.threadId q)

include h

theorem waits_pop {t : ThreadId} (ht : Waits (q.pop waitQueueCap).2 t) :
    Waits q t ∧ ∀ e, (q.pop waitQueueCap).1 = some e → t ≠ e.threadId := by
  obtain ⟨d, hd, rfl⟩ := ht
  obtain ⟨hold, hne⟩ := h.pop.2.2 d hd
  exact ⟨⟨d, hold, rfl⟩, hne⟩

theorem waits_of_pop {e : WaitEntry} (he : (q.pop waitQueueCap).1 = some e) :
    Waits q e.threadId := ⟨e, h.pop.2.1 e he, rfl⟩

theorem waits_push {e : WaitEntry} {q' : Ring WaitEntry} (hnew : ¬ Waits q e.threadId)
    (hp : q.push waitQueueCap e = some q') :
    Ring.Distinct waitQueueCap WaitEntry.threadId q' ∧
      ∀ t, Waits q' t → t = e.threadId ∨ Waits q t := by
  obtain ⟨hd, hold⟩ := h.push hp fun b hb hk => hnew ⟨b, hb, hk⟩
  refine ⟨hd, fun t ht => ?_⟩
  obtain ⟨b, hb, rfl⟩ := ht
  rcases hold b hb with rfl | hb
  · exact .inl rfl
  · exact .inr ⟨b, hb, rfl⟩

end Queue

/-! ## One operation on a channel -/

namespace ChannelInner

variable {c : ChannelInner}

/-- What `match_sender` does to the queues: it takes out the receiver it names, or puts in the
sender, or neither. -/
theorem matchSender_spec (h : c.Wf) {tid : ThreadId} (msg : Message)
    (hnew : ¬ Waits c.senderQueue tid) : (c.matchSender tid msg).2.Wf ∧
    match (c.matchSender tid msg).1 with
    | .ok (.matched r) => Waits c.receiverQueue r ∧
        (∀ t, Waits (c.matchSender tid msg).2.receiverQueue t → Waits c.receiverQueue t ∧ t ≠ r) ∧
        ∀ t, Waits (c.matchSender tid msg).2.senderQueue t → Waits c.senderQueue t
    | .ok .parked =>
        (∀ t, Waits (c.matchSender tid msg).2.receiverQueue t → Waits c.receiverQueue t) ∧
        ∀ t, Waits (c.matchSender tid msg).2.senderQueue t → t = tid ∨ Waits c.senderQueue t
    | .error _ =>
        (∀ t, Waits (c.matchSender tid msg).2.receiverQueue t → Waits c.receiverQueue t) ∧
        ∀ t, Waits (c.matchSender tid msg).2.senderQueue t → Waits c.senderQueue t := by
  have hpop := h.receivers.pop.1
  have hleft := fun t => waits_pop h.receivers (t := t)
  have htaken := fun e => waits_of_pop h.receivers (e := e)
  unfold matchSender
  rcases hq : c.receiverQueue.pop waitQueueCap with ⟨_ | r, q⟩
  · rw [hq] at hpop hleft
    simp only
    cases hp : c.senderQueue.push waitQueueCap
        { threadId := tid, reason := .send, msg := some msg } with
    | none => exact ⟨⟨hpop, h.senders⟩, fun t ht => (hleft t ht).1, fun t ht => ht⟩
    | some q' =>
      obtain ⟨hd, hold⟩ := waits_push h.senders hnew hp
      exact ⟨⟨hpop, hd⟩, fun t ht => (hleft t ht).1, hold⟩
  · rw [hq] at hpop hleft htaken
    exact ⟨⟨hpop, h.senders⟩, htaken r rfl, fun t ht => ⟨(hleft t ht).1, (hleft t ht).2 r rfl⟩,
      fun t ht => ht⟩

/-- What `match_receiver` does to the queues. -/
theorem matchReceiver_spec (h : c.Wf) {tid : ThreadId} (hnew : ¬ Waits c.receiverQueue tid) :
    (c.matchReceiver tid).2.Wf ∧
    match (c.matchReceiver tid).1 with
    | .ok (.matched e) => Waits c.senderQueue e.threadId ∧
        (∀ t, Waits (c.matchReceiver tid).2.senderQueue t →
          Waits c.senderQueue t ∧ t ≠ e.threadId) ∧
        ∀ t, Waits (c.matchReceiver tid).2.receiverQueue t → Waits c.receiverQueue t
    | .ok .parked =>
        (∀ t, Waits (c.matchReceiver tid).2.senderQueue t → Waits c.senderQueue t) ∧
        ∀ t, Waits (c.matchReceiver tid).2.receiverQueue t → t = tid ∨ Waits c.receiverQueue t
    | .error _ =>
        (∀ t, Waits (c.matchReceiver tid).2.senderQueue t → Waits c.senderQueue t) ∧
        ∀ t, Waits (c.matchReceiver tid).2.receiverQueue t → Waits c.receiverQueue t := by
  have hpop := h.senders.pop.1
  have hleft := fun t => waits_pop h.senders (t := t)
  have htaken := fun e => waits_of_pop h.senders (e := e)
  unfold matchReceiver
  rcases hq : c.senderQueue.pop waitQueueCap with ⟨_ | r, q⟩
  · rw [hq] at hpop hleft
    simp only
    cases hp : c.receiverQueue.push waitQueueCap
        { threadId := tid, reason := .receive, msg := none } with
    | none => exact ⟨⟨h.receivers, hpop⟩, fun t ht => (hleft t ht).1, fun t ht => ht⟩
    | some q' =>
      obtain ⟨hd, hold⟩ := waits_push h.receivers hnew hp
      exact ⟨⟨hd, hpop⟩, fun t ht => (hleft t ht).1, hold⟩
  · rw [hq] at hpop hleft htaken
    exact ⟨⟨h.receivers, hpop⟩, htaken r rfl, fun t ht => ⟨(hleft t ht).1, (hleft t ht).2 r rfl⟩,
      fun t ht => ht⟩

theorem matchSender_matched {tid r : ThreadId} {msg : Message}
    (h : (c.matchSender tid msg).1 = .ok (.matched r)) :
    (c.receiverQueue.pop waitQueueCap).1.map (·.threadId) = some r := by
  unfold matchSender at h
  rcases hq : c.receiverQueue.pop waitQueueCap with ⟨_ | e, q⟩
  · rw [hq] at h
    cases hp : c.senderQueue.push waitQueueCap
        { threadId := tid, reason := .send, msg := some msg } with
    | none =>
      rw [hp] at h
      cases h
    | some q' =>
      rw [hp] at h
      cases h
  · rw [hq] at h
    cases h
    rfl

theorem matchSender_parked {tid : ThreadId} {msg : Message}
    (h : (c.matchSender tid msg).1 = .ok .parked) :
    (c.receiverQueue.pop waitQueueCap).1 = none ∧ c.senderQueue.count < waitQueueCap := by
  unfold matchSender at h
  rcases hq : c.receiverQueue.pop waitQueueCap with ⟨_ | e, q⟩
  · rw [hq] at h
    cases hp : c.senderQueue.push waitQueueCap
        { threadId := tid, reason := .send, msg := some msg } with
    | none =>
      rw [hp] at h
      cases h
    | some q' => exact ⟨rfl, (Ring.push_eq_some hp).1⟩
  · rw [hq] at h
    cases h

theorem matchReceiver_parked {tid : ThreadId} (h : (c.matchReceiver tid).1 = .ok .parked) :
    (c.senderQueue.pop waitQueueCap).1 = none ∧ c.receiverQueue.count < waitQueueCap := by
  unfold matchReceiver at h
  rcases hq : c.senderQueue.pop waitQueueCap with ⟨_ | e, q⟩
  · rw [hq] at h
    cases hp : c.receiverQueue.push waitQueueCap
        { threadId := tid, reason := .receive, msg := none } with
    | none =>
      rw [hp] at h
      cases h
    | some q' => exact ⟨rfl, (Ring.push_eq_some hp).1⟩
  · rw [hq] at h
    cases h

/-- After `cancel_receive` the thread waits to receive no more. -/
theorem cancelReceive_spec (h : c.Wf) (tid : ThreadId) : (c.cancelReceive tid).Wf ∧
    ∀ t, Waits (c.cancelReceive tid).receiverQueue t → Waits c.receiverQueue t ∧ t ≠ tid := by
  obtain ⟨hd, hold⟩ := h.receivers.removeBy (by decide) (p := fun e => e.threadId == tid) (k := tid)
    fun a => by simp
  refine ⟨⟨hd, h.senders⟩, fun t ht => ?_⟩
  obtain ⟨e, he, rfl⟩ := ht
  exact ⟨⟨e, (hold e he).1, rfl⟩, (hold e he).2⟩

end ChannelInner

/-! ## Channels without cancelled receives

As long as nobody is removed from the middle, both rings are lists. -/

namespace ChannelInner

/-- The channel's queues are the lists `rs` and `qs`, oldest first. -/
structure Lists (c : ChannelInner) (rs qs : List WaitEntry) : Prop where
  receivers : c.receiverQueue.Filled waitQueueCap
  senders : c.senderQueue.Filled waitQueueCap
  receivers_eq : c.receiverQueue.toList waitQueueCap = rs
  senders_eq : c.senderQueue.toList waitQueueCap = qs

theorem lists_new : new.Lists [] [] :=
  ⟨Ring.filled_empty (by decide), Ring.filled_empty (by decide), rfl, rfl⟩

variable {c : ChannelInner} {rs qs : List WaitEntry}

/-- There is room for a push. -/
theorem exists_push {q : Ring WaitEntry} {l : List WaitEntry} (h : q.Filled waitQueueCap)
    (hl : q.toList waitQueueCap = l) (hlen : l.length < waitQueueCap) (e : WaitEntry) :
    ∃ q', q.push waitQueueCap e = some q' ∧ q'.Filled waitQueueCap ∧
      q'.toList waitQueueCap = l ++ [e] := by
  cases hp : q.push waitQueueCap e with
  | none =>
    rw [Ring.push_eq_none_iff, ← Ring.length_toList h, hl] at hp
    omega
  | some q' =>
    obtain ⟨hf, hq'⟩ := Ring.toList_push h hp
    exact ⟨q', rfl, hf, by rw [hq', hl]⟩

theorem Lists.matchSender_cons {r : WaitEntry} (h : c.Lists (r :: rs) qs) (tid : ThreadId)
    (msg : Message) : ∃ c', c.matchSender tid msg = (.ok (.matched r.threadId), c') ∧
      c'.Lists rs qs := by
  obtain ⟨q, hpop, -, hf, hl⟩ := Ring.pop_cons h.receivers h.receivers_eq
  unfold matchSender
  rw [hpop]
  exact ⟨_, rfl, hf, h.senders, hl, h.senders_eq⟩

theorem Lists.matchSender_nil (h : c.Lists [] qs) (hlen : qs.length < waitQueueCap)
    (tid : ThreadId) (msg : Message) : ∃ c', c.matchSender tid msg = (.ok .parked, c') ∧
      c'.Lists [] (qs ++ [{ threadId := tid, reason := .send, msg := some msg }]) := by
  obtain ⟨q, hp, hf, hl⟩ := exists_push h.senders h.senders_eq hlen
    { threadId := tid, reason := .send, msg := some msg }
  unfold matchSender
  rw [Ring.pop_nil h.receivers h.receivers_eq, hp]
  exact ⟨_, rfl, h.receivers, hf, h.receivers_eq, hl⟩

theorem Lists.matchReceiver_cons {e : WaitEntry} (h : c.Lists rs (e :: qs)) (tid : ThreadId) :
    ∃ c', c.matchReceiver tid = (.ok (.matched e), c') ∧ c'.Lists rs qs := by
  obtain ⟨q, hpop, -, hf, hl⟩ := Ring.pop_cons h.senders h.senders_eq
  unfold matchReceiver
  rw [hpop]
  exact ⟨_, rfl, h.receivers, hf, h.receivers_eq, hl⟩

theorem Lists.matchReceiver_nil (h : c.Lists rs []) (hlen : rs.length < waitQueueCap)
    (tid : ThreadId) : ∃ c', c.matchReceiver tid = (.ok .parked, c') ∧
      c'.Lists (rs ++ [{ threadId := tid, reason := .receive, msg := none }]) [] := by
  obtain ⟨q, hp, hf, hl⟩ := exists_push h.receivers h.receivers_eq hlen
    { threadId := tid, reason := .receive, msg := none }
  unfold matchReceiver
  rw [Ring.pop_nil h.senders h.senders_eq, hp]
  exact ⟨_, rfl, hf, h.senders, hl, h.senders_eq⟩

end ChannelInner

/-! ## Notifications -/

/-- `Notification`: a flag, and the threads that wait for it. -/
structure Notification where
  signaled : Bool
  waitQueue : Ring ThreadId

namespace Notification

/-- `Notification::new`. -/
def new : Notification := { signaled := false, waitQueue := .empty }

/-- The table half of `signal_notification`: the waiter to wake, if there is one. -/
def signal (n : Notification) : Option ThreadId × Notification :=
  match n.waitQueue.pop waitQueueCap with
  | (some waiter, q) => (some waiter, { n with waitQueue := q })
  | (none, q) => (none, { signaled := true, waitQueue := q })

/-- The table half of `wait_on_notification`: whether to block. -/
def wait (n : Notification) (tid : ThreadId) : Except IpcError Bool × Notification :=
  if n.signaled then (.ok false, { n with signaled := false })
  else
    match n.waitQueue.push waitQueueCap tid with
    | none => (.error .channelTableFull, n)
    | some q => (.ok true, { n with waitQueue := q })

/-- No thread waits twice. -/
def Wf (n : Notification) : Prop := Ring.Distinct waitQueueCap id n.waitQueue

theorem wf_new : new.Wf := Ring.distinct_empty (by decide)

/-- `signal` takes out the waiter it names. -/
theorem signal_spec {n : Notification} (h : n.Wf) : n.signal.2.Wf ∧
    (∀ t, n.signal.1 = some t → n.waitQueue.Holds t) ∧
    ∀ t, n.signal.2.waitQueue.Holds t → n.waitQueue.Holds t ∧ n.signal.1 ≠ some t := by
  have hpop := Ring.Distinct.pop h
  unfold signal
  rcases hq : n.waitQueue.pop waitQueueCap with ⟨_ | w, q⟩
  · rw [hq] at hpop
    exact ⟨hpop.1, fun t ht => (by cases ht), fun t ht => ⟨(hpop.2.2 t ht).1, by simp⟩⟩
  · rw [hq] at hpop
    refine ⟨hpop.1, fun t ht => hpop.2.1 t ht, fun t ht => ?_⟩
    obtain ⟨hold, hne⟩ := hpop.2.2 t ht
    refine ⟨hold, fun heq => hne w rfl ?_⟩
    exact (Option.some.inj heq).symm

/-- `wait` puts in the thread exactly when it blocks. -/
theorem wait_spec {n : Notification} (h : n.Wf) {tid : ThreadId}
    (hnew : ¬ n.waitQueue.Holds tid) : (n.wait tid).2.Wf ∧
    ∀ t, (n.wait tid).2.waitQueue.Holds t →
      n.waitQueue.Holds t ∨ (t = tid ∧ (n.wait tid).1 = .ok true) := by
  unfold wait
  by_cases hs : n.signaled = true
  · rw [if_pos hs]
    exact ⟨h, fun t ht => .inl ht⟩
  · rw [if_neg hs]
    cases hp : n.waitQueue.push waitQueueCap tid with
    | none => exact ⟨h, fun t ht => .inl ht⟩
    | some q =>
      obtain ⟨hd, hold⟩ := Ring.Distinct.push h hp fun b hb hk => by
        rw [id, id] at hk
        rw [hk] at hb
        exact hnew hb
      refine ⟨hd, fun t ht => ?_⟩
      rcases hold t ht with rfl | ht
      · exact .inr ⟨rfl, rfl⟩
      · exact .inl ht

theorem wait_blocks {n : Notification} {tid : ThreadId} (h : (n.wait tid).1 = .ok true) :
    n.signaled = false ∧ n.waitQueue.count < waitQueueCap := by
  unfold wait at h
  by_cases hs : n.signaled = true
  · rw [if_pos hs] at h
    cases h
  · rw [if_neg hs] at h
    cases hp : n.waitQueue.push waitQueueCap tid with
    | none =>
      rw [hp] at h
      cases h
    | some q => exact ⟨by simpa using hs, (Ring.push_eq_some hp).1⟩

end Notification

end QuackOS.Ipc
