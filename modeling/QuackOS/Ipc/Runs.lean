import QuackOS.Ipc.Waiting

/-!
# Steps of the kernel

Every step keeps the invariant of `Waiting`, provided

* a call parks only while somebody else is runnable (`parks`): with an empty ready queue
  `schedule` returns at once, and so does the call;
* a sender matches, and the timer interrupt expires, only threads that are still blocked
  (`Fresh`): a woken receiver stands in the timer queue until it runs, an expired one in the
  channel's queue.
-/

namespace QuackOS.Ipc

open QuackOS.Sche (ThreadId Thread ThreadTable Sched IpcState)
open ChannelInner (Waits)

namespace Kernel

/-- The syscall will push its caller into a wait queue. -/
def parks (s : Kernel) : Op → Bool
  | .send ch msg => decide (msg.length ≤ 256) && (s.channels ch).any fun c =>
      (c.receiverQueue.pop waitQueueCap).1.isNone && decide (c.senderQueue.count < waitQueueCap)
  | .recv ch _ => receives ch
  | .recvTimeout ch _ _ _ => receives ch
  | .notifyWait n => (s.notifications n).any fun o =>
      !o.signaled && decide (o.waitQueue.count < waitQueueCap)
  | _ => false
where
  receives (ch : ℕ) : Bool := (s.channels ch).any fun c =>
    (c.senderQueue.pop waitQueueCap).1.isNone && decide (c.receiverQueue.count < waitQueueCap)

def isBlocked (s : Kernel) (t : ThreadId) : Bool :=
  (s.lookup t).any fun th => th.state == .blocked

/-- The receiver a sender will match. -/
def receiverAt (s : Kernel) (ch : ℕ) : Option ThreadId :=
  (s.channels ch).bind fun c => (c.receiverQueue.pop waitQueueCap).1.map (·.threadId)

/-- The length of the buffer a thread is receiving into. -/
def bufLen (s : Kernel) (t : ThreadId) : Option ℕ :=
  match s.kont t with
  | .call c => c.bufLen
  | _ => none

/-- A call parks only while somebody is runnable. -/
def ReadyToPark (s : Kernel) (op : Op) : Prop :=
  s.kont s.current = .user → s.parks op = true → s.sched.HasReady

/-- Only blocked threads are matched and expired, and matches meet `F`. -/
def Fresh (F : ThreadId → ℕ → ℕ → Prop) (s : Kernel) : Op → Prop
  | .send ch msg => s.kont s.current = .user → msg.length ≤ 256 → ∀ r ∈ s.receiverAt ch,
      s.isBlocked r = true ∧ ∀ n ∈ s.bufLen r, F r msg.length n
  | .timerIrq elapsed => ∀ t ∈ expiredTids { s with clock := s.clock + elapsed },
      s.isBlocked t = true
  | _ => True

/-- The condition on a step. -/
def Safe (F : ThreadId → ℕ → ℕ → Prop) (s : Kernel) (op : Op) : Prop :=
  s.ReadyToPark op ∧ s.Fresh F op

end Kernel

variable {F : ThreadId → ℕ → ℕ → Prop} {s s' : Kernel} {t : ThreadId}

theorem Kernel.isBlocked_iff :
    s.isBlocked t = true ↔ ∃ th, s.lookup t = some th ∧ th.state = .blocked := by
  unfold Kernel.isBlocked
  rw [Option.any_eq_true]
  simp only [beq_iff_eq]

/-! ## Switching -/

/-- **A switch** ends with a thread in user code, or in the idle loop of an exited one. -/
theorem Base.switch (h : Base F s) (hc : s.sched.HasReady ∨ CurrentOk s) : Inv F s.switch := by
  unfold Kernel.switch
  rcases Sche.ReadyQueue.dequeueReady_spec h.sched.valid with ⟨hnone, hnil⟩ | ⟨p, n, rest, rq, hd, -⟩
  · have heq : s.sched.schedule = s.sched := by
      unfold Sched.schedule
      rw [hnone]
    rw [heq]
    have hcur : CurrentOk s := by
      rcases hc with ⟨p, hp⟩ | hc
      · exact absurd (hnil p) hp
      · exact hc
    have hres : s.resume = s := by
      unfold Kernel.resume
      rcases hcur with ⟨hk, -⟩ | hk <;> rw [hk]
    show Inv F s.resume
    rw [hres]
    exact ⟨h, hcur⟩
  · have hinv := h.sched.schedule hd fun _ _ _ => False.elim
    obtain ⟨th, hl, -⟩ := hinv.current
    exact h.schedule.resume hl (hinv.runs th hl)

/-- A thread inside a call is not the one on the processor. -/
theorem CurrentOk.ne_current (h : CurrentOk s) {c : Call} (hk : s.kont t = .call c) :
    t ≠ s.current := by
  rintro rfl
  rcases h with ⟨hu, -⟩ | hx
  · rw [hu] at hk
    cases hk
  · rw [hx] at hk
    cases hk

/-! ## Popping -/

/-- What is known of a thread in a wait queue that is still blocked. -/
theorem Inv.of_queued (h : Inv F s) {q : WaitQueue} (hq : s.Queued q t)
    (hb : s.isBlocked t = true) : ∃ c th, s.kont t = .call c ∧ c.queue = q ∧
      s.lookup t = some th ∧ th.state = .blocked ∧ t ≠ s.current := by
  obtain ⟨c, hk, hcq, -⟩ := (h.threads t).queued q hq
  obtain ⟨th, hl, hst⟩ := Kernel.isBlocked_iff.mp hb
  exact ⟨c, th, hk, hcq, hl, hst, h.current.ne_current hk⟩

/-- A thread that waits for an untimed partner is blocked: it cannot have expired. -/
theorem ThreadOk.isBlocked_of_untimed (h : ThreadOk F s t) {q : WaitQueue} (hq : s.Queued q t)
    (hu : ∀ c, s.kont t = .call c → c.timed = false) : s.isBlocked t = true := by
  obtain ⟨c, hk, -, hnp⟩ := h.queued q hq
  obtain ⟨th, hl, hp⟩ := h.calls c hk
  refine Kernel.isBlocked_iff.mpr ⟨th, hl, ?_⟩
  generalize hh : s.history t = hist at hp
  cases hp with
  | waiting hst => exact hst
  | popped _ _ _ => exact absurd hh (hnp _ _)
  | expired _ _ htimed =>
    rw [hu c hk] at htimed
    cases htimed

/-- **A partner pops a blocked thread and wakes it.**  `s'` is the state after the queues and
buffers have changed. -/
theorem Inv.wakePopped (h : Inv F s) (hbase : Base F s') (hsched : s'.sched = s.sched)
    (hkont : s'.kont = s.kont) {q : WaitQueue} (hq : s.Queued q t) (hb : s.isBlocked t = true)
    (hq' : ∀ q' t', s'.Queued q' t' → s.Queued q' t' ∧ (q' = q → t' ≠ t))
    {o : Option (List (BitVec 8))}
    (hd : ∀ c, s.kont t = .call c → Delivered F t c (s'.buffers.readBuffer t) o) :
    Inv F (s'.wakePopped t o) := by
  obtain ⟨c, th, hk, hcq, hl, hst, hne⟩ := h.of_queued hq hb
  have hl' : s'.lookup t = some th := by
    unfold Kernel.lookup
    rw [hsched]
    exact hl
  have hcur : s'.current = s.current := by
    unfold Kernel.current
    rw [hsched]
  have hnq : ∀ q', ¬ s'.Queued q' t := by
    intro q' hq''
    obtain ⟨hold, hne'⟩ := hq' q' t hq''
    obtain ⟨c', hk', hcq', -⟩ := (h.threads t).queued q' hold
    rw [hk] at hk'
    cases hk'
    exact hne' (hcq'.symm.trans hcq) rfl
  refine ⟨hbase.wakePopped (by rw [hkont]; exact hk) hl' hst (by rw [hcur]; exact hne) hnq (hd c hk),
    ?_⟩
  have hc := h.current
  have hcur' : (s'.wakePopped t o).current = s.current := by
    refine Eq.trans ?_ hcur
    exact Sched.wake_current s'.sched t
  have hlook : (s'.wakePopped t o).lookup s.current = s.lookup s.current := by
    refine (Sched.lookup_wake_of_ne s'.sched (Ne.symm hne)).trans ?_
    rw [hsched]
    rfl
  have hkont' : (s'.wakePopped t o).kont = s.kont := hkont
  unfold CurrentOk
  rw [hcur', hkont', hlook]
  exact hc

/-- The condition the invariant puts on the thread in user code. -/
theorem Inv.running (h : Inv F s) (hu : s.kont s.current = .user) :
    ∃ th, s.lookup s.current = some th ∧ th.state = .running := by
  rcases h.current with ⟨-, hr⟩ | hx
  · exact hr
  · rw [hu] at hx
    cases hx

/-- A thread in user code waits nowhere. -/
theorem Base.not_queued (h : Base F s) (hu : s.kont t = .user) (q : WaitQueue) :
    ¬ s.Queued q t := by
  intro hq
  obtain ⟨c, hk, -⟩ := (h.threads t).queued q hq
  rw [hu] at hk
  cases hk

/-! ## The syscalls -/

/-- Writing back a channel that has lost no well-formedness and gained no thread. -/
theorem Inv.setChannel (h : Inv F s) {ch : ℕ} {c c' : ChannelInner} (hc : s.channels ch = some c)
    (hwf : c'.Wf) (hr : ∀ t, Waits c'.receiverQueue t → Waits c.receiverQueue t)
    (hs : ∀ t, Waits c'.senderQueue t → Waits c.senderQueue t) : Inv F (s.setChannel ch c') := by
  refine ⟨h.toBase.dequeue (h.wf_setChannel hwf) h.notifications fun q t hq => ?_, h.current⟩
  rcases Kernel.queued_setChannel hq with ⟨rfl, hw⟩ | ⟨rfl, hw⟩ | ⟨-, -, hq⟩
  · exact ⟨c, hc, hr t hw⟩
  · exact ⟨c, hc, hs t hw⟩
  · exact hq

/-- **`sys_ipc_send`.** -/
theorem Inv.sysIpcSend (h : Inv F s) (hu : s.kont s.current = .user) {ch : ℕ}
    {msg : List (BitVec 8)} (hsafe : s.Safe F (.send ch msg)) : Inv F (s.sysIpcSend ch msg).2 := by
  unfold Kernel.sysIpcSend
  split
  · exact h
  rename_i hlen
  have hlen : msg.length ≤ 256 := by omega
  cases hc : s.channels ch with
  | none => exact h
  | some c =>
    have hnq : ¬ Waits c.senderQueue s.current := fun hw =>
      h.not_queued hu (.senders ch) ⟨c, hc, hw⟩
    obtain ⟨hwf, hspec⟩ :=
      ChannelInner.matchSender_spec (h.channels ch c hc) (Kernel.sentMessage msg) hnq
    rcases hm : c.matchSender s.current (Kernel.sentMessage msg) with ⟨r, c'⟩
    rw [hm] at hwf hspec
    simp only [hm]
    cases r with
    | error e => exact h.setChannel hc hwf hspec.1 hspec.2
    | ok a =>
      cases a with
      | parked =>
        obtain ⟨hpop, hcount⟩ := ChannelInner.matchSender_parked (congrArg Prod.fst hm)
        have hready : s.sched.HasReady := hsafe.1 hu (by simp [Kernel.parks, hlen, hc, hpop, hcount])
        obtain ⟨th, hl, hrun⟩ := h.running hu
        refine Base.switch (h.blocked s.timers hu hl hrun (by simp)
          (h.wf_setChannel hwf) h.notifications (fun q t hq => ?_) h.timers fun e he => .inl he)
          (.inl ?_)
        · rcases Kernel.queued_setChannel hq with ⟨rfl, hw⟩ | ⟨rfl, hw⟩ | ⟨-, -, hq⟩
          · exact .inl ⟨c, hc, hspec.1 t hw⟩
          · rcases hspec.2 t hw with rfl | hw
            · exact .inr ⟨rfl, rfl⟩
            · exact .inl ⟨c, hc, hw⟩
          · exact .inl hq
        · unfold Sched.HasReady
          show ∃ p, (Sched.markBlocked s.sched _).ready.list p ≠ []
          rw [Sched.markBlocked_ready]
          exact hready
      | matched r =>
        have hr : s.receiverAt ch = some r := by
          simp [Kernel.receiverAt, hc, ChannelInner.matchSender_matched (congrArg Prod.fst hm)]
        obtain ⟨hb, hF⟩ := hsafe.2 hu hlen r hr
        have hq : s.Queued (.receivers ch) r := ⟨c, hc, hspec.1⟩
        obtain ⟨k, th, hk, -, hl, hst, -⟩ := h.of_queued hq hb
        have h1 : Base F (s.setChannel ch c') :=
          (h.setChannel hc hwf (fun t hw => (hspec.2.1 t hw).1) hspec.2.2).toBase
        refine h.wakePopped (h1.deliver (Kernel.sentMessage msg) hl fun _ _ => hst) rfl rfl hq hb
          (fun q' t' hq' => ?_) fun k' hk' n hn => ?_
        · rcases Kernel.queued_setChannel (s := s) (k := ch) (d := c') hq' with
            ⟨rfl, hw⟩ | ⟨rfl, hw⟩ | ⟨hne, -, hq'⟩
          · exact ⟨⟨c, hc, (hspec.2.1 t' hw).1⟩, fun _ => (hspec.2.1 t' hw).2⟩
          · exact ⟨⟨c, hc, hspec.2.2 t' hw⟩, fun hcon => by cases hcon⟩
          · exact ⟨hq', fun hcon => absurd hcon hne⟩
        · refine ⟨msg, rfl, hF n ?_, IpcBufferTable.readBuffer_deliver _ _ msg hlen r n⟩
          rw [Kernel.bufLen, hk']
          exact hn

/-- **The matched half of a receive**: the sender that was popped is woken. -/
theorem Inv.receiveFrom (h : Inv F s) (hu : s.kont s.current = .user) {ch : ℕ}
    {c c' : ChannelInner} (hc : s.channels ch = some c) (hwf : c'.Wf) {e : WaitEntry}
    (he : Waits c.senderQueue e.threadId)
    (hs : ∀ t, Waits c'.senderQueue t → Waits c.senderQueue t ∧ t ≠ e.threadId)
    (hr : ∀ t, Waits c'.receiverQueue t → Waits c.receiverQueue t) (bufLen : ℕ) :
    Inv F ((s.setChannel ch c').receiveFrom e bufLen).2 := by
  have hq : s.Queued (.senders ch) e.threadId := ⟨c, hc, he⟩
  -- a sender is in no timed call, so it cannot have been woken otherwise
  have hsend : ∀ k, s.kont e.threadId = .call k → k.timed = false ∧ k.bufLen = none := by
    intro k hk
    obtain ⟨k', hk', hkq, -⟩ := (h.threads _).queued _ hq
    rw [hk] at hk'
    cases hk'
    cases k <;> first | exact ⟨rfl, rfl⟩ | cases hkq
  have hb := (h.threads _).isBlocked_of_untimed hq fun k hk => (hsend k hk).1
  obtain ⟨th, hl, -⟩ := h.running hu
  have h1 : Base F (s.setChannel ch c') :=
    (h.setChannel hc hwf hr fun t hw => (hs t hw).1).toBase
  set msg := e.msg.getD (.newShort 0 .empty) with hmsg
  have h2 : Base F { s.setChannel ch c' with buffers := s.buffers.delivered msg s.current } := by
    refine h1.deliver _ hl fun k hk => ?_
    have hk' : s.kont s.current = .call k := hk
    rw [hu] at hk'
    cases hk'
  have key : Inv F (Kernel.wakePopped
      { s.setChannel ch c' with buffers := s.buffers.delivered msg s.current } e.threadId none) := by
    refine h.wakePopped h2 rfl rfl hq hb (fun q' t' hq' => ?_) fun k hk n hn => ?_
    · rcases Kernel.queued_setChannel (s := s) (k := ch) (d := c') hq' with
        ⟨rfl, hw⟩ | ⟨rfl, hw⟩ | ⟨-, hne, hq'⟩
      · exact ⟨⟨c, hc, hr t' hw⟩, fun hcon => by cases hcon⟩
      · exact ⟨⟨c, hc, (hs t' hw).1⟩, fun _ => (hs t' hw).2⟩
      · exact ⟨hq', fun hcon => absurd hcon hne⟩
    · rw [(hsend k hk).2] at hn
      cases hn
  unfold Kernel.receiveFrom
  simp only [← hmsg]
  clear_value msg
  cases msg <;> exact key

/-- **The parked half of a receive**, with the deadline and the timers as the call left them. -/
theorem Inv.parkReceive (h : Inv F s) (hu : s.kont s.current = .user) {ch : ℕ}
    {c c' : ChannelInner} (hc : s.channels ch = some c) (hwf : c'.Wf)
    (hs : ∀ t, Waits c'.senderQueue t → Waits c.senderQueue t)
    (hr : ∀ t, Waits c'.receiverQueue t → t = s.current ∨ Waits c.receiverQueue t)
    (hready : s.sched.HasReady) {k : Call} (hk : k.queue = .receivers ch)
    {timers : List TimerDeadline} (hnodup : (timers.map (·.tid)).Nodup)
    (htimers : ∀ e ∈ timers, e ∈ s.timers ∨ (e.tid = s.current ∧ k.timed = true)) :
    Inv F (Kernel.park { s.setChannel ch c' with timers } k (.blockedOnReceive ch)) := by
  obtain ⟨th, hl, hrun⟩ := h.running hu
  refine Base.switch (h.blocked timers hu hl hrun (by simp) (h.wf_setChannel hwf)
    h.notifications (fun q t hq => ?_) hnodup htimers) (.inl ?_)
  · rcases Kernel.queued_setChannel (s := s) (k := ch) (d := c') hq with
      ⟨rfl, hw⟩ | ⟨rfl, hw⟩ | ⟨-, -, hq⟩
    · rcases hr t hw with rfl | hw
      · exact .inr ⟨hk.symm, rfl⟩
      · exact .inl ⟨c, hc, hw⟩
    · exact .inl ⟨c, hc, hs t hw⟩
    · exact .inl hq
  · unfold Sched.HasReady
    show ∃ p, (Sched.markBlocked s.sched _).ready.list p ≠ []
    rw [Sched.markBlocked_ready]
    exact hready

/-- **`sys_ipc_recv`.** -/
theorem Inv.sysIpcRecv (h : Inv F s) (hu : s.kont s.current = .user) {ch bufLen : ℕ}
    (hsafe : s.ReadyToPark (.recv ch bufLen)) : Inv F (s.sysIpcRecv ch bufLen).2 := by
  unfold Kernel.sysIpcRecv
  cases hc : s.channels ch with
  | none => exact h
  | some c =>
    have hnq : ¬ Waits c.receiverQueue s.current := fun hw =>
      h.not_queued hu (.receivers ch) ⟨c, hc, hw⟩
    obtain ⟨hwf, hspec⟩ := ChannelInner.matchReceiver_spec (h.channels ch c hc) hnq
    rcases hm : c.matchReceiver s.current with ⟨r, c'⟩
    rw [hm] at hwf hspec
    simp only [hm]
    cases r with
    | error e => exact h.setChannel hc hwf hspec.2 hspec.1
    | ok a =>
      cases a with
      | matched e => exact h.receiveFrom hu hc hwf hspec.1 hspec.2.1 hspec.2.2 bufLen
      | parked =>
        obtain ⟨hpop, hcount⟩ := ChannelInner.matchReceiver_parked (congrArg Prod.fst hm)
        have hready : s.sched.HasReady :=
          hsafe hu (by simp [Kernel.parks, Kernel.parks.receives, hc, hpop, hcount])
        exact h.parkReceive (k := .recv ch bufLen) hu hc hwf hspec.1 hspec.2 hready rfl h.timers
          fun e he => .inl he

/-- Inserting into the sorted timer queue. -/
theorem mem_insertTimer {l : List TimerDeadline} {p : TimerDeadline → Bool} {a e : TimerDeadline} :
    e ∈ l.takeWhile p ++ a :: l.dropWhile p ↔ e = a ∨ e ∈ l := by
  rw [(List.perm_middle (a := a)).mem_iff, List.takeWhile_append_dropWhile, List.mem_cons]

theorem nodup_insertTimer {l : List TimerDeadline} {p : TimerDeadline → Bool} {a : TimerDeadline}
    (hl : (l.map (·.tid)).Nodup) (ha : ∀ e ∈ l, e.tid ≠ a.tid) :
    ((l.takeWhile p ++ a :: l.dropWhile p).map (·.tid)).Nodup := by
  have hperm : (l.takeWhile p ++ a :: l.dropWhile p).Perm (a :: l) := by
    refine List.perm_middle.trans ?_
    rw [List.takeWhile_append_dropWhile]
  rw [(hperm.map TimerDeadline.tid).nodup_iff, List.map_cons, List.nodup_cons]
  refine ⟨fun hm => ?_, hl⟩
  obtain ⟨e, he, het⟩ := List.mem_map.mp hm
  exact ha e he het

/-- Time passes, and a deadline is written: neither concerns the invariant. -/
theorem Inv.setDeadline (h : Inv F s) (d clock : ℕ) :
    Inv F { s with
      sched := { s.sched with table := s.sched.table.withThreadMut s.current fun th =>
        { th with ipcDeadline := d } }
      clock := clock } := by
  have hb := h.toBase.setDeadline s.current d h.timers fun e he => he
  refine ⟨⟨hb.sched, hb.noWait4, hb.channels, hb.notifications, hb.timers, fun t => ?_⟩, ?_⟩
  · exact (hb.threads t).frame ⟨rfl, rfl, fun th hl => ⟨th, hl, .refl th⟩, fun _ _ => rfl,
      fun q hq => by cases q <;> exact hq, fun _ he _ => he⟩
  · rcases h.current with ⟨hk, th, hl, hrun⟩ | hx
    · refine .inl ⟨hk, { th with ipcDeadline := d }, ?_, hrun⟩
      have hl' : s.sched.table.lookup s.current = some th := hl
      refine (ThreadTable.lookup_withThreadMut _ (by intro _; rfl) s.current s.current).trans ?_
      rw [if_pos rfl, hl']
      rfl
    · exact .inr hx

/-- **`sys_ipc_recv_timeout`.** -/
theorem Inv.sysIpcRecvTimeout (h : Inv F s) (hu : s.kont s.current = .user)
    {ch bufLen timeoutMs : ℕ} (elapsed : ℕ)
    (hsafe : s.ReadyToPark (.recvTimeout ch bufLen timeoutMs elapsed)) :
    Inv F (s.sysIpcRecvTimeout ch bufLen timeoutMs).2 := by
  unfold Kernel.sysIpcRecvTimeout
  cases hc : s.channels ch with
  | none => exact h
  | some c =>
    have hnq : ¬ Waits c.receiverQueue s.current := fun hw =>
      h.not_queued hu (.receivers ch) ⟨c, hc, hw⟩
    obtain ⟨hwf, hspec⟩ := ChannelInner.matchReceiver_spec (h.channels ch c hc) hnq
    rcases hm : c.matchReceiver s.current with ⟨r, c'⟩
    rw [hm] at hwf hspec
    simp only [hm]
    cases r with
    | error e => exact h.setChannel hc hwf hspec.2 hspec.1
    | ok a =>
      cases a with
      | matched e => exact h.receiveFrom hu hc hwf hspec.1 hspec.2.1 hspec.2.2 bufLen
      | parked =>
        obtain ⟨hpop, hcount⟩ := ChannelInner.matchReceiver_parked (congrArg Prod.fst hm)
        have hready : s.sched.HasReady :=
          hsafe hu (by simp [Kernel.parks, Kernel.parks.receives, hc, hpop, hcount])
        show Inv F (((s.setChannel ch c').setIpcTimeout s.current timeoutMs).park
          (.recvTimeout ch bufLen) (.blockedOnReceive ch))
        unfold Kernel.setIpcTimeout
        split
        · exact h.parkReceive (k := .recvTimeout ch bufLen) hu hc hwf hspec.1 hspec.2 hready rfl
            h.timers fun e he => .inl he
        · set d := (s.clock + timeoutMs * s.freq / 1000) % 2 ^ 64
          have hunarmed : ∀ e ∈ s.timers, e.tid ≠ s.current := by
            intro e he het
            obtain ⟨ch', n, hk, -⟩ := (h.threads s.current).armed e he het
            rw [hu] at hk
            cases hk
          refine (h.setDeadline d s.clock).parkReceive (k := .recvTimeout ch bufLen) hu hc hwf
            hspec.1 hspec.2 hready rfl (nodup_insertTimer (a := ⟨d, s.current⟩) h.timers hunarmed) fun e he => ?_
          rcases mem_insertTimer.mp he with rfl | he
          · exact .inr ⟨rfl, rfl⟩
          · exact .inl he

/-- The queues after a notification has been written. -/
theorem Kernel.queued_setNotification {n : ℕ} {d : Notification} {q : WaitQueue}
    (hq : (s.setNotification n d).Queued q t) :
    (q = .waiters n ∧ d.waitQueue.Holds t) ∨ (q ≠ .waiters n ∧ s.Queued q t) := by
  cases q with
  | receivers k => exact .inr ⟨by simp, hq⟩
  | senders k => exact .inr ⟨by simp, hq⟩
  | waiters k =>
    obtain ⟨o, ho, hw⟩ := hq
    by_cases hk : k = n
    · have hself : (s.setNotification n d).notifications n = some d := Function.update_self ..
      rw [hk, hself] at ho
      cases ho
      exact .inl ⟨by rw [hk], hw⟩
    · have hother : (s.setNotification n d).notifications k = s.notifications k :=
        Function.update_of_ne hk _ _
      rw [hother] at ho
      exact .inr ⟨by simpa using hk, o, ho, hw⟩

theorem Base.wf_setNotification (h : Base F s) {n : ℕ} {o' : Notification} (ho' : o'.Wf) :
    ∀ k o, (s.setNotification n o').notifications k = some o → o.Wf := by
  intro k o ho
  by_cases hk : k = n
  · have hself : (s.setNotification n o').notifications n = some o' := Function.update_self ..
    rw [hk, hself] at ho
    cases ho
    exact ho'
  · exact h.notifications k o ((Function.update_of_ne hk _ _).symm.trans ho)

/-- Writing back a notification that has gained no waiter. -/
theorem Inv.setNotification (h : Inv F s) {n : ℕ} {o o' : Notification}
    (ho : s.notifications n = some o) (hwf : o'.Wf)
    (hsub : ∀ t, o'.waitQueue.Holds t → o.waitQueue.Holds t) :
    Inv F (s.setNotification n o') := by
  refine ⟨h.toBase.dequeue h.channels (h.wf_setNotification hwf) fun q t hq => ?_, h.current⟩
  rcases Kernel.queued_setNotification hq with ⟨rfl, hw⟩ | ⟨-, hq⟩
  · exact ⟨o, ho, hsub t hw⟩
  · exact hq

/-- **`wait_on_notification`.** -/
theorem Inv.waitOnNotification (h : Inv F s) (hu : s.kont s.current = .user) {n : ℕ}
    (hsafe : s.ReadyToPark (.notifyWait n)) : Inv F (s.waitOnNotification n).2 := by
  unfold Kernel.waitOnNotification
  cases ho : s.notifications n with
  | none => exact h
  | some o =>
    have hnq : ¬ o.waitQueue.Holds s.current := fun hw =>
      h.not_queued hu (.waiters n) ⟨o, ho, hw⟩
    obtain ⟨hwf, hspec⟩ := Notification.wait_spec (h.notifications n o ho) hnq
    rcases hm : o.wait s.current with ⟨r, o'⟩
    rw [hm] at hwf hspec
    simp only [hm]
    have hsame : r ≠ .ok true → ∀ t, o'.waitQueue.Holds t → o.waitQueue.Holds t := by
      intro hr t hw
      rcases hspec t hw with hw | ⟨-, hc⟩
      · exact hw
      · exact absurd hc hr
    cases r with
    | error e => exact h.setNotification ho hwf (hsame (by simp))
    | ok b =>
      cases b with
      | false => exact h.setNotification ho hwf (hsame (by simp))
      | true =>
        obtain ⟨hsig, hcount⟩ := Notification.wait_blocks (congrArg Prod.fst hm)
        have hready : s.sched.HasReady := hsafe hu (by simp [Kernel.parks, ho, hsig, hcount])
        obtain ⟨th, hl, hrun⟩ := h.running hu
        refine Base.switch (h.blocked s.timers hu hl hrun (by simp) h.channels
          (h.wf_setNotification hwf) (fun q t hq => ?_) h.timers fun e he => .inl he) (.inl ?_)
        · rcases Kernel.queued_setNotification (s := s) (n := n) (d := o') hq with
            ⟨rfl, hw⟩ | ⟨-, hq⟩
          · rcases hspec t hw with hw | ⟨rfl, -⟩
            · exact .inl ⟨o, ho, hw⟩
            · exact .inr ⟨rfl, rfl⟩
          · exact .inl hq
        · unfold Sched.HasReady
          show ∃ p, (Sched.markBlocked s.sched _).ready.list p ≠ []
          rw [Sched.markBlocked_ready]
          exact hready

/-- **`signal_notification`.** -/
theorem Inv.signalNotification (h : Inv F s) (n : ℕ) : Inv F (s.signalNotification n).2 := by
  unfold Kernel.signalNotification
  cases ho : s.notifications n with
  | none => exact h
  | some o =>
    obtain ⟨hwf, htaken, hleft⟩ := Notification.signal_spec (h.notifications n o ho)
    rcases hm : o.signal with ⟨_ | w, o'⟩
    · rw [hm] at hwf hleft
      simp only [hm]
      exact h.setNotification ho hwf fun t hw => (hleft t hw).1
    · rw [hm] at hwf htaken hleft
      simp only [hm]
      have hq : s.Queued (.waiters n) w := ⟨o, ho, htaken w rfl⟩
      -- a waiter is in no timed call
      have hwait : ∀ k, s.kont w = .call k → k.timed = false ∧ k.bufLen = none := by
        intro k hk
        obtain ⟨k', hk', hkq, -⟩ := (h.threads w).queued _ hq
        rw [hk] at hk'
        cases hk'
        cases k <;> first | exact ⟨rfl, rfl⟩ | cases hkq
      have hb := (h.threads w).isBlocked_of_untimed hq fun k hk => (hwait k hk).1
      refine h.wakePopped (h.setNotification ho hwf fun t hw => (hleft t hw).1).toBase rfl rfl hq hb
        (fun q' t' hq' => ?_) fun k hk m hm' => ?_
      · rcases Kernel.queued_setNotification hq' with ⟨rfl, hw⟩ | ⟨hne, hq'⟩
        · refine ⟨⟨o, ho, (hleft t' hw).1⟩, fun _ hc => (hleft t' hw).2 ?_⟩
          rw [hc]
        · exact ⟨hq', fun hc => absurd hc hne⟩
      · rw [(hwait k hk).2] at hm'
        cases hm'

/-! ## Creation, exit and the timer interrupt -/

theorem Inv.create (h : Inv F s) {p : Sche.Priority} {tt as : BitVec 64} {child : Bool}
    {tid : ThreadId} {sched : Sched} (hc : s.sched.create p tt as child = some (tid, sched)) :
    Inv F { s with sched } := by
  obtain ⟨hcons, hcur, hne, hnew, nth, -, hipc, hlook⟩ :=
    h.sched.create (p := p) hc False.elim
  have hother : ∀ t th, s.lookup t = some th → sched.table.lookup t = some th := by
    intro t th hl
    rw [hlook, if_neg]
    · exact hl
    · rintro rfl
      have hl' : s.sched.table.lookup t = some th := hl
      rw [hnew] at hl'
      cases hl'
  refine ⟨⟨hcons, fun t th hl => ?_, h.channels, h.notifications, h.timers, fun t =>
    (h.threads t).frame ⟨rfl, rfl, fun th hl => ⟨th, hother t th hl, .refl th⟩, fun _ _ => rfl,
      fun q hq => by cases q <;> exact hq, fun _ he _ => he⟩⟩, ?_⟩
  · have hl' : sched.table.lookup t = some th := hl
    rw [hlook] at hl'
    split at hl'
    · cases hl'
      rw [hipc]
      simp
    · exact h.noWait4 t th hl'
  · rcases h.current with ⟨hk, th, hl, hrun⟩ | hx
    · refine .inl ⟨?_, th, ?_, hrun⟩
      · show s.kont sched.current = .user
        rw [hcur]
        exact hk
      · show sched.table.lookup sched.current = some th
        rw [hcur]
        exact hother _ th hl
    · refine .inr ?_
      show s.kont sched.current = .exited
      rw [hcur]
      exact hx

/-- **`sys_exit_thread`.**  Nobody is in `wait4`, so nobody is woken. -/
theorem Inv.sysExitThread (h : Inv F s) (hu : s.kont s.current = .user) (code : BitVec 32) :
    Inv F (s.sysExitThread code) := by
  obtain ⟨th, hl, hrun⟩ := h.running hu
  have hinv : s.sched.Invariant False := ⟨h.sched, fun th' hl' => by
    have hl'' : s.lookup s.current = some th' := hl'
    rw [hl, Option.some.injEq] at hl''
    rw [← hl'', hrun]⟩
  obtain ⟨hcons, hdying⟩ := hinv.markDying code
  set f : Thread → Thread := fun th => { th with exitCode := code, state := .dying }
  have hlook : ∀ t, (s.sched.markDying code).table.lookup t =
      if t = s.current then (s.lookup s.current).map f else s.lookup t :=
    ThreadTable.lookup_withThreadMut s.sched.table (f := f) (fun _ => rfl) s.current
  have hnobody : (s.sched.markDying code).waitingParent = none := by
    rw [Sched.waitingParent_markDying]
    unfold Sched.waitingParent
    rw [Option.filter_eq_none_iff]
    intro pid _ hany
    obtain ⟨pth, hpl, hpw⟩ := (Option.any_eq_true _ _).mp hany
    exact h.noWait4 pid pth hpl (beq_iff_eq.mp hpw)
  have hexit : s.sysExitThread code = Kernel.switch { s.setKont s.current .exited with
      sched := s.sched.markDying code } := by
    unfold Kernel.sysExitThread Kernel.switch Sched.sysExitThread
    simp only [Kernel.setKont, hnobody]
  have hkont : (s.setKont s.current .exited).kont = Function.update s.kont s.current .exited := rfl
  rw [hexit]
  refine Base.switch (h.of_frame s.current hcons (fun t th' hl' => ?_) h.channels
    h.notifications h.timers ⟨fun c hc => ?_, fun _ => ⟨f th, ?_, rfl⟩, fun q hq => ?_,
      fun e he het => ?_, (h.threads s.current).explained⟩ fun t ht => ?_)
    (.inr (.inr (Function.update_self ..)))
  · have hl'' := (hlook t).symm.trans hl'
    split at hl''
    · obtain ⟨th₀, hth₀, rfl⟩ := Option.map_eq_some_iff.mp hl''
      exact h.noWait4 s.current th₀ hth₀
    · exact h.noWait4 t th' hl''
  · have hc' := (congrFun hkont s.current).symm.trans hc
    rw [Function.update_self] at hc'
    cases hc'
  · refine (hlook s.current).trans ?_
    rw [if_pos rfl, hl]
    rfl
  · exact absurd (by cases q <;> exact hq) (h.not_queued hu q)
  · obtain ⟨ch, n, hk, -⟩ := (h.threads s.current).armed e he het
    rw [hu] at hk
    cases hk
  · refine ⟨Function.update_of_ne ht _ _, rfl, fun th' hl' => ⟨th', ?_, .refl th'⟩, fun _ _ => rfl,
      fun q hq => by cases q <;> exact hq, fun _ he _ => he⟩
    refine (hlook t).trans ?_
    rw [if_neg ht, hl']

/-- Time passes, and timers are dropped. -/
theorem Inv.dropTimers (h : Inv F s) (clock : ℕ) {timers : List TimerDeadline}
    (hsub : timers.Sublist s.timers) : Inv F { s with clock, timers } where
  toBase := ⟨h.sched, h.noWait4, h.channels, h.notifications, (hsub.map _).nodup h.timers, fun t =>
    (h.threads t).frame ⟨rfl, rfl, fun th hl => ⟨th, hl, .refl th⟩, fun _ _ => rfl,
      fun q hq => by cases q <;> exact hq, fun _ he _ => hsub.subset he⟩⟩
  current := h.current

/-- One expired timer. -/
theorem Inv.expire (h : Inv F s) {c : Call} (hk : s.kont t = .call c) (htimed : c.timed = true)
    (hb : s.isBlocked t = true) (harm : ∀ e ∈ s.timers, e.tid ≠ t) : Inv F (s.expire t) := by
  obtain ⟨th, hl, hst⟩ := Kernel.isBlocked_iff.mp hb
  have hne := h.current.ne_current hk
  refine ⟨h.toBase.expire hk htimed hl hst hne harm, ?_⟩
  have hcur : (s.expire t).current = s.current := Sched.expire_current s.sched t
  have hlook : (s.expire t).lookup s.current = s.lookup s.current :=
    Sched.lookup_expire_of_ne s.sched hne.symm
  unfold CurrentOk
  rw [hcur, hlook]
  exact h.current

/-- **The loop of `check_timeouts`**: the threads still to be woken stay as they are. -/
theorem Inv.expireAll (h : Inv F s) {l : List ThreadId} (hnodup : l.Nodup)
    (hl : ∀ t ∈ l, (∃ c, s.kont t = .call c ∧ c.timed = true) ∧ s.isBlocked t = true ∧
      ∀ e ∈ s.timers, e.tid ≠ t) : Inv F (l.foldl Kernel.expire s) := by
  induction l generalizing s with
  | nil => exact h
  | cons t l ih =>
    obtain ⟨⟨c, hk, htimed⟩, hb, harm⟩ := hl t (by simp)
    rw [List.nodup_cons] at hnodup
    refine ih (h.expire hk htimed hb harm) hnodup.2 fun t' ht' => ?_
    have hne : t' ≠ t := by
      rintro rfl
      exact hnodup.1 ht'
    obtain ⟨hk', hb', harm'⟩ := hl t' (by simp [ht'])
    refine ⟨hk', ?_, harm'⟩
    have hlook : (s.expire t).lookup t' = s.lookup t' := Sched.lookup_expire_of_ne s.sched hne
    unfold Kernel.isBlocked
    rw [hlook]
    exact hb'

/-- **The timer interrupt.** -/
theorem Inv.timerIrq (h : Inv F s) {elapsed : ℕ} (hsafe : s.Fresh F (.timerIrq elapsed)) :
    Inv F (s.timerIrq elapsed) := by
  set p : TimerDeadline → Bool := fun e => e.deadlineTicks ≤ s.clock + elapsed
  have hsplit : s.timers.takeWhile p ++ s.timers.dropWhile p = s.timers :=
    List.takeWhile_append_dropWhile
  have hn := h.timers
  rw [← hsplit, List.map_append, List.nodup_append] at hn
  have h1 := h.dropTimers (s.clock + elapsed) (List.dropWhile_sublist (l := s.timers) p)
  have h2 : Inv F (Kernel.checkTimeouts { s with clock := s.clock + elapsed }) := by
    refine h1.expireAll hn.1 fun t ht => ⟨?_, hsafe t ht, fun e he het => ?_⟩
    · obtain ⟨e, he, rfl⟩ := List.mem_map.mp ht
      obtain ⟨ch, n, hk, -⟩ := (h.threads e.tid).armed e
        ((List.takeWhile_sublist p).subset he) rfl
      exact ⟨_, hk, rfl⟩
    · exact hn.2.2 t ht e.tid (List.mem_map_of_mem he) het.symm
  exact h2.toBase.switch (.inr h2.current)

/-! ## Runs -/

/-- **Every safe step keeps the invariant.** -/
theorem inv_step (s : Kernel) (op : Op) (h : Inv F s) (hsafe : s.Safe F op) : Inv F (s.step op) := by
  cases op with
  | timerIrq elapsed => exact h.timerIrq hsafe.2
  | create p tt as child =>
    simp only [Kernel.step, Kernel.syscall]
    split
    · cases hc : s.sched.create p tt as child with
      | none => exact h
      | some r => exact h.create hc
    · exact h
  | yield =>
    simp only [Kernel.step, Kernel.syscall]
    split
    · exact h.toBase.switch (.inr h.current)
    · exact h
  | send ch msg =>
    simp only [Kernel.step, Kernel.syscall]
    split
    · exact h.sysIpcSend ‹_› hsafe
    · exact h
  | recv ch bufLen =>
    simp only [Kernel.step, Kernel.syscall]
    split
    · exact h.sysIpcRecv ‹_› hsafe.1
    · exact h
  | recvTimeout ch bufLen ms elapsed =>
    simp only [Kernel.step, Kernel.syscall]
    split
    · rename_i hu
      refine (h.dropTimers (s.clock + elapsed) (List.Sublist.refl _)).sysIpcRecvTimeout hu elapsed ?_
      exact hsafe.1
    · exact h
  | notifyWait n =>
    simp only [Kernel.step, Kernel.syscall]
    split
    · exact h.waitOnNotification ‹_› hsafe.1
    · exact h
  | notifySend n =>
    simp only [Kernel.step, Kernel.syscall]
    split
    · exact h.signalNotification n
    · exact h
  | exit code =>
    simp only [Kernel.step, Kernel.syscall]
    split
    · exact h.sysExitThread ‹_› code
    · exact h

/-- The invariant holds at boot, whatever channels and notifications there are. -/
theorem inv_boot (channels notifications : ℕ → Bool) (freq : ℕ) :
    Inv F (Kernel.boot channels notifications freq) := by
  have hinv := Sched.invariant_boot False
  have hempty : ∀ q t, ¬ (Kernel.boot channels notifications freq).Queued q t := by
    rintro (ch | ch | n) t ⟨c, hc, hw⟩
    · have hc' : (if channels ch = true then some ChannelInner.new else none) = some c := hc
      split at hc'
      · cases hc'
        obtain ⟨e, he, -⟩ := hw
        exact Ring.not_holds_empty e he
      · cases hc'
    · have hc' : (if channels ch = true then some ChannelInner.new else none) = some c := hc
      split at hc'
      · cases hc'
        obtain ⟨e, he, -⟩ := hw
        exact Ring.not_holds_empty e he
      · cases hc'
    · have hc' : (if notifications n = true then some Notification.new else none) = some c := hc
      split at hc'
      · cases hc'
        exact Ring.not_holds_empty t hw
      · cases hc'
  refine ⟨⟨hinv.toConsistent, fun t th hl => ?_, fun ch c hc => ?_, fun n o ho => ?_,
    List.nodup_nil, fun t => ⟨fun c hc => ?_, fun hx => ?_, fun q hq => absurd hq (hempty q t),
      fun e he => ?_, fun newer c o older hh => ?_⟩⟩, ?_⟩
  · have hl' : Sched.boot.table.lookup t = some th := hl
    rw [Sched.lookup_boot] at hl'
    split at hl'
    · cases hl'
      simp [Thread.new]
    · cases hl'
  · have hc' : (if channels ch = true then some ChannelInner.new else none) = some c := hc
    split at hc'
    · cases hc'
      exact ChannelInner.wf_new
    · cases hc'
  · have ho' : (if notifications n = true then some Notification.new else none) = some o := ho
    split at ho'
    · cases ho'
      exact Notification.wf_new
    · cases ho'
  · cases hc
  · cases hx
  · cases he
  · have hh' : ([] : List Event) = newer ++ .completed c o :: older := hh
    simp at hh'
  · obtain ⟨th, hl, -⟩ := hinv.current
    exact .inl ⟨rfl, th, hl, hinv.runs th hl⟩

end QuackOS.Ipc
