import QuackOS.Ipc.Runs

/-!
# What a run delivers

The three promises of the IPC layer, over every run from boot:

* `no_spurious_completion` — a parked call returns only after its partner;
* `matched_send_received` — what a matched receiver gets of the message;
* `timeout_or_delivery` — a receive with a timeout either gets the message that was matched to
  it, or times out and was matched to nobody.
* `arrival_order` — when it makes no difference whether the sender or the receiver came first.

Each fails in some run, and the run that breaks it stands beside it.
-/

namespace QuackOS.Ipc

open QuackOS.Sche (ThreadId Thread ThreadTable Sched IpcState)
open ChannelInner (Waits)

/-- Everything but the calls with a timeout. -/
def Op.untimed : Op → Bool
  | .recvTimeout _ _ _ _ => false
  | _ => true

namespace Kernel

/-- The state after a sequence of steps from boot. -/
def run (channels notifications : ℕ → Bool) (freq : ℕ) (ops : List Op) : Kernel :=
  Run.exec step (boot channels notifications freq) ops

/-- The condition on a step of a run without timeouts. -/
def Untimed (s : Kernel) (op : Op) : Prop := op.untimed = true ∧ s.ReadyToPark op

end Kernel

variable {F : ThreadId → ℕ → ℕ → Prop} {s s' : Kernel} {t : ThreadId}

/-! ## Runs without timeouts -/

/-- Nobody has a timer, and nobody is in a call that has one. -/
structure Timeless (s : Kernel) : Prop where
  timers : s.timers = []
  calls : ∀ t c, s.kont t = .call c → c.timed = false

theorem Timeless.setKont (h : Timeless s) (t : ThreadId) {k : Kont}
    (hk : ∀ c, k = .call c → c.timed = false) : Timeless (s.setKont t k) where
  timers := h.timers
  calls t' c hc := by
    have hc' : Function.update s.kont t k t' = .call c := hc
    by_cases ht : t' = t
    · rw [ht, Function.update_self] at hc'
      exact hk c hc'
    · rw [Function.update_of_ne ht] at hc'
      exact h.calls t' c hc'

/-- Only the timers and the continuations count. -/
theorem Timeless.congr (h : Timeless s) (r : Kernel) (ht : r.timers = s.timers)
    (hk : r.kont = s.kont) : Timeless r := ⟨by rw [ht]; exact h.timers, by rw [hk]; exact h.calls⟩

theorem Timeless.complete (h : Timeless s) (c : Call) (o : Outcome) : Timeless (s.complete c o) :=
  (h.congr (s.log s.current _) rfl rfl).setKont s.current (by intro _ hc; cases hc)

theorem Timeless.resume (h : Timeless s) : Timeless s.resume := by
  unfold Kernel.resume
  cases hk : s.kont s.current with
  | user => exact h
  | exited => exact h
  | call c =>
    cases c with
    | send ch m => exact h.complete _ _
    | recv ch n => exact h.complete _ _
    | notifyWait n => exact h.complete _ _
    | recvTimeout ch n =>
      have := h.calls _ _ hk
      cases this

theorem Timeless.switch (h : Timeless s) : Timeless s.switch :=
  (h.congr { s with sched := s.sched.schedule } rfl rfl).resume

theorem Timeless.park (h : Timeless s) {c : Call} (hc : c.timed = false) (ipc : IpcState) :
    Timeless (s.park c ipc) := by
  have h1 : Timeless ((s.log s.current (.parked c)).setKont s.current (.call c)) :=
    (h.congr (s.log s.current _) rfl rfl).setKont s.current
      (by intro c' hc'; cases hc'; exact hc)
  exact (h1.congr (s.blocked c ipc) rfl rfl).switch

/-- Runs without timeouts stay without. -/
theorem Timeless.step (h : Timeless s) {op : Op} (hop : op.untimed = true) :
    Timeless (s.step op) := by
  have hsys : Timeless (s.syscall op) := by
    cases op with
    | create p tt as child =>
      simp only [Kernel.syscall]
      split
      · exact h
      · exact h.congr _ rfl rfl
    | yield => exact h.switch
    | send ch msg =>
      simp only [Kernel.syscall, Kernel.sysIpcSend]
      split
      · exact h
      split
      · exact h
      split
      · exact h.congr _ rfl rfl
      · exact h.congr _ rfl rfl
      · exact (h.congr (s.setChannel ch _) rfl rfl).park rfl _
    | recv ch n =>
      simp only [Kernel.syscall, Kernel.sysIpcRecv]
      split
      · exact h
      split
      · exact h.congr _ rfl rfl
      · unfold Kernel.receiveFrom
        simp only
        split <;> exact h.congr _ rfl rfl
      · exact (h.congr (s.setChannel ch _) rfl rfl).park rfl _
    | recvTimeout ch n ms elapsed => cases hop
    | notifyWait n =>
      simp only [Kernel.syscall, Kernel.waitOnNotification]
      split
      · exact h
      split
      · exact h.congr _ rfl rfl
      · exact h.congr _ rfl rfl
      · exact (h.congr (s.setNotification n _) rfl rfl).park rfl _
    | notifySend n =>
      simp only [Kernel.syscall, Kernel.signalNotification]
      split
      · exact h
      split <;> exact h.congr _ rfl rfl
    | exit code =>
      have h1 : Timeless (s.setKont s.current .exited) :=
        h.setKont s.current (by intro _ hc; cases hc)
      exact Timeless.resume (h1.congr _ rfl rfl)
    | timerIrq elapsed =>
      refine Timeless.switch (h.congr _ ?_ ?_)
      · simp [Kernel.checkTimeouts, Kernel.expiredTids, h.timers]
      · simp [Kernel.checkTimeouts, Kernel.expiredTids, h.timers]
  unfold Kernel.step
  split
  · exact hsys
  · split
    · exact hsys
    · exact h

theorem timeless_boot (channels notifications : ℕ → Bool) (freq : ℕ) :
    Timeless (Kernel.boot channels notifications freq) := ⟨rfl, by intro _ _ hc; cases hc⟩

/-- Without timeouts, everybody in a wait queue is still blocked. -/
theorem Timeless.fresh (ht : Timeless s) (h : Inv F s) (op : Op) :
    s.Fresh (fun _ _ _ => True) op := by
  cases op with
  | send ch msg =>
    intro _ _ r hr
    refine ⟨?_, fun _ _ => trivial⟩
    obtain ⟨c, hc, hr⟩ := Option.bind_eq_some_iff.mp hr
    obtain ⟨e, he, rfl⟩ := Option.map_eq_some_iff.mp hr
    have hq : s.Queued (.receivers ch) e.threadId :=
      ⟨c, hc, waits_of_pop (h.channels ch c hc).receivers he⟩
    exact (h.threads _).isBlocked_of_untimed hq fun k hk => ht.calls _ k hk
  | timerIrq elapsed =>
    intro t hm
    simp [Kernel.expiredTids, ht.timers] at hm
  | create _ _ _ _ => trivial
  | yield => trivial
  | recv _ _ => trivial
  | recvTimeout _ _ _ _ => trivial
  | notifyWait _ => trivial
  | notifySend _ => trivial
  | exit _ => trivial

/-- The invariant over a run without timeouts. -/
theorem inv_untimed {channels notifications : ℕ → Bool} {freq : ℕ} {ops pre : List Op}
    (h : Run.Along Kernel.step Kernel.Untimed (Kernel.boot channels notifications freq) ops)
    (hpre : pre <+: ops) :
    Inv (fun _ _ _ => True) (Kernel.run channels notifications freq pre) :=
  (Run.exec_invariant_prefix (I := fun s => Inv (fun _ _ _ => True) s ∧ Timeless s)
    (fun s op hI hC => ⟨inv_step s op hI.1 ⟨hC.2, hI.2.fresh hI.1 op⟩, hI.2.step hC.1⟩)
    ⟨inv_boot channels notifications freq, timeless_boot channels notifications freq⟩ h hpre).1

/-! ## No spurious completion -/

/-- Every send, receive or wait for a notification that parked and returned had been popped by a
partner in between. -/
def NoSpuriousCompletion (s : Kernel) : Prop :=
  ∀ t newer c o older, c.timed = false → s.history t = newer ++ .completed c o :: older →
    ∃ m rest, older = .popped m :: .parked c :: rest

/-- The only thread of the system receives. -/
def idleReceive : List Op := [.recv 0 16]

/-- **A receive in an idle system returns at once**, although nobody has sent anything. -/
theorem idleReceive_spurious :
    ¬ NoSpuriousCompletion (Kernel.run (fun ch => ch == 0) (fun _ => false) 0 idleReceive) := by
  intro h
  have hh : (Kernel.run (fun ch => ch == 0) (fun _ => false) 0 idleReceive).history Sched.bootTid =
      [] ++ .completed (.recv 0 16) (.bytes []) :: [.parked (.recv 0 16)] := by decide +kernel
  obtain ⟨m, rest, hold⟩ := h _ _ _ _ _ rfl hh
  cases hold

/-- **A parked call returns only after its partner**, in every run in which calls park only while
another thread is runnable. -/
theorem no_spurious_completion (channels notifications : ℕ → Bool) (freq : ℕ) (ops : List Op)
    (h : Run.Along Kernel.step Kernel.Untimed (Kernel.boot channels notifications freq) ops)
    (pre : List Op) (hpre : pre <+: ops) :
    NoSpuriousCompletion (Kernel.run channels notifications freq pre) := by
  intro t newer c o older hc hh
  have hinv := inv_untimed h hpre
  rcases (hinv.threads t).explained newer c o older hh with ⟨m, rest, hold, -⟩ | ⟨rest, -, htimed, -⟩
  · exact ⟨m, rest, hold⟩
  · rw [hc] at htimed
    cases htimed

instance (s : Sched) : Decidable s.HasReady :=
  inferInstanceAs (Decidable (∃ p, s.ready.list p ≠ []))

instance (s : Kernel) (op : Op) : Decidable (s.ReadyToPark op) :=
  inferInstanceAs (Decidable (_ → _ → _))

instance (s : Kernel) (op : Op) : Decidable (s.Untimed op) := inferInstanceAs (Decidable (_ ∧ _))

/-- A receiver parks while a second thread is runnable, which sends it three bytes and yields. -/
def sendThree : List Op := [.create 128 0 0 false, .recv 0 16, .send 0 [1, 2, 3], .yield]

theorem no_spurious_completion_sendThree :
    Run.Along Kernel.step Kernel.Untimed (Kernel.boot (fun ch => ch == 0) (fun _ => false) 0)
      sendThree ∧
    NoSpuriousCompletion (Kernel.run (fun ch => ch == 0) (fun _ => false) 0 sendThree) := by
  have hrun : Run.Along Kernel.step Kernel.Untimed
      (Kernel.boot (fun ch => ch == 0) (fun _ => false) 0) sendThree := by decide +kernel
  exact ⟨hrun, no_spurious_completion _ _ _ sendThree hrun _ List.prefix_rfl⟩

/-! ## Matched sends -/

/-- Every receive that parked returned the message a sender was matched to it with, cut to its
buffer. -/
def MatchedSendsReceived (s : Kernel) : Prop :=
  ∀ t newer ch n o m rest, s.history t =
      newer ++ .completed (.recv ch n) o :: .popped (some m) :: .parked (.recv ch n) :: rest →
    o = .bytes (m.take n)

/-- **Three bytes arrive as eight.** -/
theorem sendThree_padded : ¬ MatchedSendsReceived
    (Kernel.run (fun ch => ch == 0) (fun _ => false) 0 sendThree) := by
  intro h
  have hh : (Kernel.run (fun ch => ch == 0) (fun _ => false) 0 sendThree).history Sched.bootTid =
      [] ++ .completed (.recv 0 16) (.bytes [1, 2, 3, 0, 0, 0, 0, 0]) :: .popped (some [1, 2, 3]) ::
        .parked (.recv 0 16) :: [] := by decide +kernel
  have := h _ _ _ _ _ _ _ hh
  revert this
  decide

/-- **What a matched receiver gets.**  In every run in which calls park only while another thread
is runnable, a receive that had parked was matched to a message; it returns exactly that message,
cut to its buffer, if and only if the receiver has one of the 32 buffers and the message fills
whole words or the receiver's buffer, or there is nothing to hand over. -/
theorem matched_send_received (channels notifications : ℕ → Bool) (freq : ℕ) (ops : List Op)
    (h : Run.Along Kernel.step Kernel.Untimed (Kernel.boot channels notifications freq) ops)
    (pre : List Op) (hpre : pre <+: ops) (t : ThreadId) (newer older : List Event) (ch n : ℕ)
    (o : Outcome) (hh : (Kernel.run channels notifications freq pre).history t =
      newer ++ .completed (.recv ch n) o :: older) :
    ∃ m rest, older = .popped (some m) :: .parked (.recv ch n) :: rest ∧
      (o = .bytes (m.take n) ↔ Fits t m.length n) := by
  have hinv := inv_untimed h hpre
  rcases (hinv.threads t).explained newer _ o older hh with ⟨m, rest, hold, hm⟩ | ⟨-, -, htimed, -⟩
  · obtain ⟨b, rfl, -, rfl⟩ := hm n rfl
    refine ⟨b, rest, hold, ?_⟩
    rw [Outcome.bytes.injEq]
    exact received_eq_take_iff t b n
  · cases htimed

/-- The same with a message of one word. -/
def sendWord : List Op :=
  [.create 128 0 0 false, .recv 0 16, .send 0 [1, 2, 3, 4, 5, 6, 7, 8], .yield]

theorem matched_send_received_sendWord :
    Run.Along Kernel.step Kernel.Untimed (Kernel.boot (fun ch => ch == 0) (fun _ => false) 0)
      sendWord ∧
    (Kernel.run (fun ch => ch == 0) (fun _ => false) 0 sendWord).history Sched.bootTid =
      [] ++ .completed (.recv 0 16) (.bytes [1, 2, 3, 4, 5, 6, 7, 8]) ::
        [.popped (some [1, 2, 3, 4, 5, 6, 7, 8]), .parked (.recv 0 16)] ∧
    Fits Sched.bootTid 8 16 := by
  have hrun : Run.Along Kernel.step Kernel.Untimed
      (Kernel.boot (fun ch => ch == 0) (fun _ => false) 0) sendWord := by decide +kernel
  have hh : (Kernel.run (fun ch => ch == 0) (fun _ => false) 0 sendWord).history Sched.bootTid =
      [] ++ .completed (.recv 0 16) (.bytes [1, 2, 3, 4, 5, 6, 7, 8]) ::
        [.popped (some [1, 2, 3, 4, 5, 6, 7, 8]), .parked (.recv 0 16)] := by decide +kernel
  obtain ⟨m, rest, hold, hm⟩ :=
    matched_send_received _ _ _ sendWord hrun _ List.prefix_rfl _ _ _ _ _ _ hh
  cases hold
  exact ⟨hrun, hh, hm.mp rfl⟩

/-! ## Timeout or delivery -/

def Event.isParked : Event → Bool
  | .parked _ => true
  | _ => false

/-- What has happened since the call was parked. -/
def sincePark (h : List Event) : List Event := h.takeWhile fun e => !e.isParked

/-- A receive with a timeout that a sender was matched to returns the message; one that times out
was matched to nobody, and afterwards waits in neither queue of the channel. -/
def TimeoutOrDelivery (s : Kernel) : Prop :=
  ∀ t newer ch n o older, s.history t = newer ++ .completed (.recvTimeout ch n) o :: older →
    (∀ m, .popped m ∈ sincePark older → ∃ b, m = some b ∧ o = .bytes (b.take n)) ∧
    (o = .value (-etimedout) → (∀ m, .popped m ∉ sincePark older) ∧
      (newer = [] → ¬ s.Queued (.receivers ch) t ∧ ¬ s.Queued (.senders ch) t))

/-- A receiver parks with a timeout of 5 ms and is matched; before it runs again, the timer
interrupt comes. -/
def lateTimer : List Op :=
  [.create 128 0 0 false, .recvTimeout 0 16 5 0, .send 0 [1, 2, 3, 4, 5, 6, 7, 8], .timerIrq 10]

/-- **The message is lost**: the sender was matched, and the receiver times out. -/
theorem lateTimer_lost : ¬ TimeoutOrDelivery
    (Kernel.run (fun ch => ch == 0) (fun _ => false) 1000 lateTimer) := by
  intro h
  have hh : (Kernel.run (fun ch => ch == 0) (fun _ => false) 1000 lateTimer).history
      Sched.bootTid = [] ++ .completed (.recvTimeout 0 16) (.value (-etimedout)) ::
        [.expired, .popped (some [1, 2, 3, 4, 5, 6, 7, 8]), .parked (.recvTimeout 0 16)] := by
    decide +kernel
  obtain ⟨b, -, hb⟩ := (h _ _ _ _ _ _ hh).1 (some [1, 2, 3, 4, 5, 6, 7, 8]) (by decide)
  cases hb

/-- A thread whose last event is a return waits in no queue. -/
theorem ThreadOk.not_queued_of_completed (h : ThreadOk F s t) {c : Call} {o : Outcome}
    {older : List Event} (hh : s.history t = .completed c o :: older) (q : WaitQueue) :
    ¬ s.Queued q t := by
  intro hq
  obtain ⟨c', hk, -⟩ := h.queued q hq
  obtain ⟨th, -, hp⟩ := h.calls c' hk
  rw [hh] at hp
  cases hp

/-- **Timeout or delivery, never both**, in every run in which calls park only while another
thread is runnable, senders match only receivers that are still blocked (and whose message will
fit), and the timer interrupt expires only such receivers. -/
theorem timeout_or_delivery (channels notifications : ℕ → Bool) (freq : ℕ) (ops : List Op)
    (h : Run.Along Kernel.step (Kernel.Safe Fits) (Kernel.boot channels notifications freq) ops)
    (pre : List Op) (hpre : pre <+: ops) :
    TimeoutOrDelivery (Kernel.run channels notifications freq pre) := by
  have hinv : Inv Fits (Kernel.run channels notifications freq pre) :=
    Run.exec_invariant_prefix inv_step (inv_boot channels notifications freq) h hpre
  intro t newer ch n o older hh
  rcases (hinv.threads t).explained newer _ o older hh with ⟨m, rest, rfl, hm⟩ | ⟨rest, rfl, -, rfl⟩
  · obtain ⟨b, rfl, hfits, rfl⟩ := hm n rfl
    rw [(received_eq_take_iff t b n).mpr hfits]
    refine ⟨fun m hmem => ?_, fun hc => by cases hc⟩
    have hm' : m = some b := by simpa [sincePark, Event.isParked] using hmem
    exact ⟨b, hm', rfl⟩
  · refine ⟨fun m hmem => ?_, fun _ => ⟨fun m hmem => ?_, fun hnew => ?_⟩⟩
    · simp [sincePark, Event.isParked] at hmem
    · simp [sincePark, Event.isParked] at hmem
    · rw [hnew, List.nil_append] at hh
      exact ⟨(hinv.threads t).not_queued_of_completed hh _,
        (hinv.threads t).not_queued_of_completed hh _⟩

/-- The same receiver, that runs before the interrupt comes. -/
def timelySend : List Op :=
  [.create 128 0 0 false, .recvTimeout 0 16 5 0, .send 0 [1, 2, 3, 4, 5, 6, 7, 8], .yield,
    .timerIrq 10]

theorem timeout_or_delivery_timelySend :
    Run.Along Kernel.step (Kernel.Safe Fits)
      (Kernel.boot (fun ch => ch == 0) (fun _ => false) 1000) timelySend ∧
    TimeoutOrDelivery (Kernel.run (fun ch => ch == 0) (fun _ => false) 1000 timelySend) := by
  have hrun : Run.Along Kernel.step (Kernel.Safe Fits)
      (Kernel.boot (fun ch => ch == 0) (fun _ => false) 1000) timelySend := by
    refine ⟨⟨by decide +kernel, trivial⟩, ⟨by decide +kernel, trivial⟩, ⟨by decide +kernel, ?_⟩,
      ⟨by decide +kernel, trivial⟩, ⟨by decide +kernel, ?_⟩, trivial⟩
    · intro _ _
      decide +kernel
    · unfold Kernel.Fresh
      decide +kernel
  exact ⟨hrun, timeout_or_delivery _ _ _ timelySend hrun _ List.prefix_rfl⟩

/-! ## Who came first -/

/-- The sender came first: the message waits in its entry, and the receiver takes it from
there. -/
def Kernel.recvSenderFirst (s : Kernel) (sender : ThreadId) (msg : List (BitVec 8)) (bufLen : ℕ) :
    Option Outcome :=
  (s.receiveFrom { threadId := sender, reason := .send, msg := some (sentMessage msg) } bufLen).1

/-- The receiver came first: the sender wrote the message into its buffer, and the call goes on
behind `block_current`. -/
def Kernel.recvReceiverFirst (s : Kernel) (ch : ℕ) (msg : List (BitVec 8)) (bufLen : ℕ) : Kernel :=
  { s with buffers := s.buffers.delivered (sentMessage msg) s.current }.finish (.recv ch bufLen)

theorem Kernel.recvSenderFirst_eq (s : Kernel) (sender : ThreadId) {msg : List (BitVec 8)}
    (hmsg : msg.length ≤ 256) (bufLen : ℕ) :
    s.recvSenderFirst sender msg bufLen = some (.bytes (msg.take bufLen)) := by
  rw [← unpackShort_packShort msg hmsg bufLen]
  rfl

theorem Kernel.recvReceiverFirst_history (s : Kernel) (ch : ℕ) {msg : List (BitVec 8)}
    (hmsg : msg.length ≤ 256) (bufLen : ℕ) :
    (s.recvReceiverFirst ch msg bufLen).history s.current =
      .completed (.recv ch bufLen) (.bytes (received s.current msg bufLen)) ::
        s.history s.current := by
  rw [← IpcBufferTable.readBuffer_deliver s.buffers 1 msg hmsg s.current bufLen]
  exact Function.update_self ..

/-- **Arrival order.**  For every message of at most 256 bytes, every buffer and every state of
the kernel, in particular of the receive buffers: `sys_ipc_recv` returns the same bytes (and
with them the same count) in both orders exactly when the message is empty, or the buffer is, or
the receiver has an `IpcBuffer` and the message fills whole words or the user's buffer. -/
theorem arrival_order (s : Kernel) (ch : ℕ) (sender : ThreadId) (msg : List (BitVec 8))
    (hmsg : msg.length ≤ 256) (bufLen : ℕ) :
    (∃ o, s.recvSenderFirst sender msg bufLen = some o ∧
      (s.recvReceiverFirst ch msg bufLen).history s.current =
        .completed (.recv ch bufLen) o :: s.history s.current) ↔
      Fits s.current msg.length bufLen := by
  rw [s.recvSenderFirst_eq sender hmsg, s.recvReceiverFirst_history ch hmsg,
    ← received_eq_take_iff s.current msg bufLen]
  constructor
  · rintro ⟨o, ho, hh⟩
    cases ho
    simpa using hh
  · intro heq
    exact ⟨_, rfl, by rw [heq]⟩

theorem arrival_order_wholeWord :
    [1, 2, 3, 4, 5, 6, 7, 8].length ≤ 256 ∧
    ∃ o, (Kernel.boot (fun _ => true) (fun _ => true) 1000).recvSenderFirst
      Sched.bootTid [1, 2, 3, 4, 5, 6, 7, 8] 16 = some o ∧
      ((Kernel.boot (fun _ => true) (fun _ => true) 1000).recvReceiverFirst 0
        [1, 2, 3, 4, 5, 6, 7, 8] 16).history Sched.bootTid = [.completed (.recv 0 16) o] := by
  refine ⟨by decide, ?_⟩
  exact (arrival_order (Kernel.boot (fun _ => true) (fun _ => true) 1000) 0 Sched.bootTid
    [1, 2, 3, 4, 5, 6, 7, 8] (by decide) 16).mpr (by decide)

/-- **Three bytes become eight** when the receiver came first. -/
theorem threeBytes_padded :
    ¬ ∃ o, (Kernel.boot (fun _ => true) (fun _ => true) 1000).recvSenderFirst
      Sched.bootTid [1, 2, 3] 16 = some o ∧
      ((Kernel.boot (fun _ => true) (fun _ => true) 1000).recvReceiverFirst 0
        [1, 2, 3] 16).history Sched.bootTid = [.completed (.recv 0 16) o] := by
  rintro ⟨o, ho, hh⟩
  have hfirst : (Kernel.boot (fun _ => true) (fun _ => true) 1000).recvSenderFirst
      Sched.bootTid [1, 2, 3] 16 = some (.bytes [1, 2, 3]) := by decide +kernel
  have hsecond : ((Kernel.boot (fun _ => true) (fun _ => true) 1000).recvReceiverFirst 0
      [1, 2, 3] 16).history Sched.bootTid =
        [.completed (.recv 0 16) (.bytes [1, 2, 3, 0, 0, 0, 0, 0])] := by decide +kernel
  rw [hfirst] at ho
  cases ho
  rw [hsecond] at hh
  revert hh
  decide

end QuackOS.Ipc
