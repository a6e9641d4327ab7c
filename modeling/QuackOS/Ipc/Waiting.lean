import QuackOS.Ipc.Kernel
import QuackOS.Sche.Lifecycle

/-!
# What a parked call is waiting for

The invariant of the kernel under a run: a thread inside a call is still waiting, or a partner
has popped it, or its timeout has expired; it stands in a wait queue only before it is popped,
and in the timer queue only before it expires.  The state of the thread, the queues and the
history of the call all say the same.

The part about one thread is `ThreadOk`; everything a step does to other threads is summed up in
`Frame`, so each operation is proved for the one thread it is about.
-/

namespace QuackOS.Ipc

open QuackOS.Sche (ThreadId Thread ThreadTable Sched IpcState)
open ChannelInner (Waits)

/-! ## Definitions -/

/-- The wait queues of the kernel. -/
inductive WaitQueue
  | receivers (ch : ℕ)
  | senders (ch : ℕ)
  | waiters (n : ℕ)
  deriving DecidableEq

namespace Call

/-- The queue a parked call waits in. -/
def queue : Call → WaitQueue
  | .send ch _ => .senders ch
  | .recv ch _ => .receivers ch
  | .recvTimeout ch _ => .receivers ch
  | .notifyWait n => .waiters n

/-- The length of the buffer of a receiving call. -/
def bufLen : Call → Option ℕ
  | .recv _ n => some n
  | .recvTimeout _ n => some n
  | _ => none

/-- The calls that look for `TimedOut` when they resume. -/
def timed : Call → Bool
  | .recvTimeout _ _ => true
  | _ => false

end Call

namespace Kernel

/-- The thread stands in the queue. -/
def Queued (s : Kernel) : WaitQueue → ThreadId → Prop
  | .receivers ch, t => ∃ c, s.channels ch = some c ∧ Waits c.receiverQueue t
  | .senders ch, t => ∃ c, s.channels ch = some c ∧ Waits c.senderQueue t
  | .waiters n, t => ∃ o, s.notifications n = some o ∧ o.waitQueue.Holds t

/-- The thread table's entry of a thread. -/
def lookup (s : Kernel) (t : ThreadId) : Option Thread := s.sched.table.lookup t

end Kernel

section

-- a condition on receiver, message length and buffer length that every match is known to meet
variable (F : ThreadId → ℕ → ℕ → Prop)

/-- What the partner of a receiver left in its buffer. -/
def Delivered (t : ThreadId) (c : Call) (read : ℕ → List (BitVec 8))
    (o : Option (List (BitVec 8))) : Prop :=
  ∀ n, c.bufLen = some n → ∃ m, o = some m ∧ F t m.length n ∧ read n = received t m n

/-- How far a call has come: its history and the thread's state agree. -/
inductive Phase (t : ThreadId) (c : Call) (read : ℕ → List (BitVec 8)) :
    List Event → Thread → Prop
  | waiting {older : List Event} {th : Thread} (hst : th.state = .blocked) :
      Phase t c read (.parked c :: older) th
  | popped {o : Option (List (BitVec 8))} {older : List Event} {th : Thread}
      (hst : th.state ≠ .blocked) (hipc : th.ipcState ≠ .timedOut) (hd : Delivered F t c read o) :
      Phase t c read (.popped o :: .parked c :: older) th
  | expired {older : List Event} {th : Thread} (hst : th.state ≠ .blocked)
      (hipc : th.ipcState = .timedOut) (htimed : c.timed = true) :
      Phase t c read (.expired :: .parked c :: older) th

/-- The reason for which a parked call returned. -/
def Explained (t : ThreadId) (c : Call) (o : Outcome) (older : List Event) : Prop :=
  (∃ m rest, older = .popped m :: .parked c :: rest ∧
    ∀ n, c.bufLen = some n → ∃ b, m = some b ∧ F t b.length n ∧ o = .bytes (received t b n)) ∨
  (∃ rest, older = .expired :: .parked c :: rest ∧ c.timed = true ∧ o = .value (-etimedout))

/-- The invariant of one thread. -/
structure ThreadOk (s : Kernel) (t : ThreadId) : Prop where
  calls : ∀ c, s.kont t = .call c → ∃ th, s.lookup t = some th ∧
    Phase F t c (s.buffers.readBuffer t) (s.history t) th
  exits : s.kont t = .exited → ∃ th, s.lookup t = some th ∧ th.state = .dying
  queued : ∀ q, s.Queued q t → ∃ c, s.kont t = .call c ∧ c.queue = q ∧
    ∀ o older, s.history t ≠ .popped o :: older
  armed : ∀ e ∈ s.timers, e.tid = t → ∃ ch n, s.kont t = .call (.recvTimeout ch n) ∧
    ∀ older, s.history t ≠ .expired :: older
  explained : ∀ newer c o older, s.history t = newer ++ .completed c o :: older →
    Explained F t c o older

/-- The invariant of the kernel, also while a thread is about to be switched out. -/
structure Base (s : Kernel) : Prop where
  sched : s.sched.Consistent False
  noWait4 : ∀ t th, s.lookup t = some th → th.ipcState ≠ .blockedOnWait4
  channels : ∀ ch c, s.channels ch = some c → c.Wf
  notifications : ∀ n o, s.notifications n = some o → o.Wf
  timers : (s.timers.map (·.tid)).Nodup
  threads : ∀ t, ThreadOk F s t

/-- The thread on the processor is running user code, or has exited and nobody else is
runnable. -/
def CurrentOk (s : Kernel) : Prop :=
  (s.kont s.current = .user ∧ ∃ th, s.lookup s.current = some th ∧ th.state = .running) ∨
  s.kont s.current = .exited

/-- The invariant between steps. -/
structure Inv (s : Kernel) : Prop extends Base F s where
  current : CurrentOk s

end

/-! ## Frames -/

/-- Two entries of the thread table that differ at most in what the invariant does not see. -/
structure Similar (th th' : Thread) : Prop where
  blocked : th'.state = .blocked ↔ th.state = .blocked
  dying : th.state = .dying → th'.state = .dying
  ipcState : th'.ipcState = th.ipcState

theorem Similar.refl (th : Thread) : Similar th th := ⟨Iff.rfl, id, rfl⟩

/-- A step that is not about the thread `t`. -/
structure Frame (s s' : Kernel) (t : ThreadId) : Prop where
  kont : s'.kont t = s.kont t
  history : s'.history t = s.history t
  look : ∀ th, s.lookup t = some th → ∃ th', s'.lookup t = some th' ∧ Similar th th'
  read : ∀ c, s.kont t = .call c → s'.buffers.readBuffer t = s.buffers.readBuffer t
  queued : ∀ q, s'.Queued q t → s.Queued q t
  timers : ∀ e ∈ s'.timers, e.tid = t → e ∈ s.timers

variable {F : ThreadId → ℕ → ℕ → Prop} {s s' : Kernel} {t : ThreadId}

theorem Phase.similar {c : Call} {read : ℕ → List (BitVec 8)} {h : List Event} {th th' : Thread}
    (hp : Phase F t c read h th) (hs : Similar th th') : Phase F t c read h th' := by
  cases hp with
  | waiting hst => exact .waiting (hs.blocked.mpr hst)
  | popped hst hipc hd =>
    exact .popped (fun hb => hst (hs.blocked.mp hb)) (by rw [hs.ipcState]; exact hipc) hd
  | expired hst hipc htimed =>
    exact .expired (fun hb => hst (hs.blocked.mp hb)) (by rw [hs.ipcState]; exact hipc) htimed

/-- **The frame rule.** -/
theorem ThreadOk.frame (h : ThreadOk F s t) (hf : Frame s s' t) : ThreadOk F s' t where
  calls c hc := by
    rw [hf.kont] at hc
    obtain ⟨th, hl, hp⟩ := h.calls c hc
    obtain ⟨th', hl', hs⟩ := hf.look th hl
    rw [hf.read c hc, hf.history]
    exact ⟨th', hl', hp.similar hs⟩
  exits hx := by
    rw [hf.kont] at hx
    obtain ⟨th, hl, hst⟩ := h.exits hx
    obtain ⟨th', hl', hs⟩ := hf.look th hl
    exact ⟨th', hl', hs.dying hst⟩
  queued q hq := by
    rw [hf.kont, hf.history]
    exact h.queued q (hf.queued q hq)
  armed e he ht := by
    rw [hf.kont, hf.history]
    exact h.armed e (hf.timers e he ht) ht
  explained := by
    rw [hf.history]
    exact h.explained

/-- A thread inside a call is blocked exactly as long as it is waiting. -/
theorem ThreadOk.waiting (h : ThreadOk F s t) {c : Call} (hc : s.kont t = .call c) {th : Thread}
    (hl : s.lookup t = some th) (hst : th.state = .blocked) :
    ∃ older, s.history t = .parked c :: older := by
  obtain ⟨th', hl', hp⟩ := h.calls c hc
  rw [hl, Option.some.injEq] at hl'
  subst hl'
  cases hh : s.history t with
  | nil =>
    rw [hh] at hp
    cases hp
  | cons e older =>
    rw [hh] at hp
    cases hp with
    | waiting _ => exact ⟨older, rfl⟩
    | popped hst' _ _ => exact absurd hst hst'
    | expired hst' _ _ => exact absurd hst hst'

/-- Nothing is queued or armed for a thread in user code. -/
theorem ThreadOk.not_queued_of_user (h : ThreadOk F s t) (hk : s.kont t = .user) (q : WaitQueue) :
    ¬ s.Queued q t := by
  intro hq
  obtain ⟨c, hc, -⟩ := h.queued q hq
  rw [hk] at hc
  cases hc

theorem ThreadOk.not_armed_of_user (h : ThreadOk F s t) (hk : s.kont t = .user) :
    ∀ e ∈ s.timers, e.tid ≠ t := by
  intro e he ht
  obtain ⟨ch, n, hc, -⟩ := h.armed e he ht
  rw [hk] at hc
  cases hc

/-- A thread inside a call is queued for that call. -/
theorem ThreadOk.queued_of_call (h : ThreadOk F s t) {c : Call} (hk : s.kont t = .call c)
    {q : WaitQueue} (hq : s.Queued q t) : q = c.queue ∧ ∀ o older, s.history t ≠ .popped o :: older := by
  obtain ⟨c', hc', hcq, hh⟩ := h.queued q hq
  rw [hk] at hc'
  cases hc'
  exact ⟨hcq.symm, hh⟩

theorem ThreadOk.armed_of_call (h : ThreadOk F s t) {c : Call} (hk : s.kont t = .call c)
    {e : TimerDeadline} (he : e ∈ s.timers) (het : e.tid = t) :
    c.timed = true ∧ ∀ older, s.history t ≠ .expired :: older := by
  obtain ⟨ch, n, hc', hh⟩ := h.armed e he het
  rw [hk] at hc'
  cases hc'
  exact ⟨rfl, hh⟩

/-- A new event that is no return leaves the old returns explained. -/
theorem explained_cons {h : List Event} {e : Event}
    (hold : ∀ newer c o older, h = newer ++ .completed c o :: older → Explained F t c o older)
    (he : ∀ c o, e = .completed c o → Explained F t c o h) :
    ∀ newer c o older, e :: h = newer ++ .completed c o :: older → Explained F t c o older := by
  intro newer c o older heq
  cases newer with
  | nil =>
    rw [List.nil_append, List.cons.injEq] at heq
    rw [← heq.2]
    exact he c o heq.1
  | cons e' newer =>
    rw [List.cons_append, List.cons.injEq] at heq
    exact hold newer c o older heq.2

/-! ## Operations on one thread -/

/-- The kernel invariant after a step that is about one thread. -/
theorem Base.of_frame (t₀ : ThreadId) (hsched : s'.sched.Consistent False)
    (hwait4 : ∀ t th, s'.lookup t = some th → th.ipcState ≠ .blockedOnWait4)
    (hch : ∀ ch c, s'.channels ch = some c → c.Wf)
    (hno : ∀ n o, s'.notifications n = some o → o.Wf)
    (htimers : (s'.timers.map (·.tid)).Nodup) (h : Base F s)
    (h₀ : ThreadOk F s' t₀) (hf : ∀ t, t ≠ t₀ → Frame s s' t) : Base F s' where
  sched := hsched
  noWait4 := hwait4
  channels := hch
  notifications := hno
  timers := htimers
  threads t := by
    by_cases ht : t = t₀
    · rw [ht]
      exact h₀
    · exact (h.threads t).frame (hf t ht)

/-- Only the thread that the step is about can begin to wait for a child. -/
theorem Base.noWait4_of (h : Base F s) {t₀ : ThreadId}
    (hother : ∀ t, t ≠ t₀ → s'.lookup t = s.lookup t) {th₀ : Thread}
    (hl₀ : s'.lookup t₀ = some th₀) (hipc : th₀.ipcState ≠ .blockedOnWait4) :
    ∀ t th, s'.lookup t = some th → th.ipcState ≠ .blockedOnWait4 := by
  intro t th hl
  by_cases ht : t = t₀
  · rw [ht, hl₀, Option.some.injEq] at hl
    rw [← hl]
    exact hipc
  · rw [hother t ht] at hl
    exact h.noWait4 t th hl

/-- A step that only takes threads out of wait queues. -/
theorem Base.dequeue (h : Base F s) {channels : ℕ → Option ChannelInner}
    {notifications : ℕ → Option Notification}
    (hch : ∀ ch c, channels ch = some c → c.Wf) (hno : ∀ n o, notifications n = some o → o.Wf)
    (hq : ∀ q t, Kernel.Queued { s with channels, notifications } q t → s.Queued q t) :
    Base F { s with channels, notifications } where
  sched := h.sched
  noWait4 := h.noWait4
  channels := hch
  notifications := hno
  timers := h.timers
  threads t := (h.threads t).frame
    ⟨rfl, rfl, fun th hl => ⟨th, hl, .refl th⟩, fun _ _ => rfl, fun q => hq q t, fun _ he _ => he⟩

/-- A slot belongs to one live thread. -/
theorem index_ne {tb : ThreadTable} {a b : ThreadId} {x y : Thread} (ha : tb.lookup a = some x)
    (hb : tb.lookup b = some y) (hne : a ≠ b) : a.index ≠ b.index := by
  intro hi
  obtain ⟨-, -, hsa, hga⟩ := ThreadTable.lookup_eq_some.mp ha
  obtain ⟨-, -, hsb, hgb⟩ := ThreadTable.lookup_eq_some.mp hb
  rw [hi, hsb, Option.some.injEq] at hsa
  refine hne (ThreadId.ext hi ?_)
  rw [← hga, ← hgb, hsa]

/-- A delivery to a thread that is not yet popped. -/
theorem Base.deliver (h : Base F s) (msg : Message) {t₀ : ThreadId} {th₀ : Thread}
    (hl₀ : s.lookup t₀ = some th₀)
    (hw : ∀ c, s.kont t₀ = .call c → th₀.state = .blocked) :
    Base F { s with buffers := s.buffers.delivered msg t₀ } := by
  have hok := h.threads t₀
  refine h.of_frame t₀ h.sched h.noWait4 h.channels h.notifications h.timers
    ⟨fun c hc => ?_, hok.exits, hok.queued, hok.armed, hok.explained⟩ fun t ht => ?_
  · obtain ⟨older, hh⟩ := hok.waiting hc hl₀ (hw c hc)
    refine ⟨th₀, hl₀, ?_⟩
    show Phase F t₀ c _ (s.history t₀) th₀
    rw [hh]
    exact .waiting (hw c hc)
  · refine ⟨rfl, rfl, fun th hl => ⟨th, hl, .refl th⟩, fun c hc => ?_, fun _ hq => hq,
      fun _ he _ => he⟩
    obtain ⟨th, hl, -⟩ := (h.threads t).calls c hc
    funext n
    exact IpcBufferTable.readBuffer_delivered_of_ne s.buffers msg (index_ne hl hl₀ ht) n

/-- **A partner wakes the thread it has popped.** -/
theorem Base.wakePopped (h : Base F s) {t₀ : ThreadId} {c : Call} {th₀ : Thread}
    (hk : s.kont t₀ = .call c) (hl₀ : s.lookup t₀ = some th₀) (hst : th₀.state = .blocked)
    (hne : t₀ ≠ s.current) (hq : ∀ q, ¬ s.Queued q t₀) {o : Option (List (BitVec 8))}
    (hd : Delivered F t₀ c (s.buffers.readBuffer t₀) o) : Base F (s.wakePopped t₀ o) := by
  have hok := h.threads t₀
  obtain ⟨older, hh⟩ := hok.waiting hk hl₀ hst
  have hlook : (s.wakePopped t₀ o).lookup t₀ =
      some { th₀ with state := .ready, ipcState := .ready } := by
    have hn := (ThreadTable.lookup_eq_some.mp hl₀).1
    have hl : s.sched.table.lookup t₀ = some th₀ := hl₀
    show (s.sched.wake t₀).table.lookup t₀ = _
    unfold Sched.wake
    rw [hn, hl]
    refine (ThreadTable.lookup_withThreadMut _ (by intro _; rfl) t₀ t₀).trans ?_
    rw [if_pos rfl, hl]
    rfl
  have hother : ∀ t, t ≠ t₀ → (s.wakePopped t₀ o).lookup t = s.lookup t := fun t ht =>
    Sched.lookup_wake_of_ne s.sched ht
  have hhist : (s.wakePopped t₀ o).history t₀ = .popped o :: .parked c :: older := by
    show Function.update _ _ _ _ = _
    rw [Function.update_self, ← hh]
  refine h.of_frame t₀ ?_ (h.noWait4_of hother hlook (by simp)) h.channels h.notifications h.timers
    ⟨fun c' hc' => ?_, fun hx => ?_, fun q hq' => absurd hq' (hq q), fun e he het => ?_, ?_⟩
    fun t ht => ?_
  · refine h.sched.wake fun th hl => ⟨?_, hne, False.elim⟩
    have hl' : s.lookup t₀ = some th := hl
    rw [hl₀, Option.some.injEq] at hl'
    rw [← hl', hst]
    simp
  · have hcc : c = c' := Kont.call.inj (hk.symm.trans hc')
    subst hcc
    refine ⟨_, hlook, ?_⟩
    rw [hhist]
    exact .popped (by simp) (by simp) hd
  · have : s.kont t₀ = .exited := hx
    rw [hk] at this
    cases this
  · obtain ⟨ch, n, hkc, -⟩ := hok.armed e he het
    refine ⟨ch, n, hkc, fun older' hc => ?_⟩
    rw [hhist] at hc
    cases hc
  · show ∀ newer c' o' older', (s.wakePopped t₀ o).history t₀ = _ → _
    rw [hhist, ← hh]
    exact explained_cons hok.explained fun _ _ hc => by cases hc
  · refine ⟨rfl, Function.update_of_ne ht _ _, fun th hl => ⟨th, ?_, .refl th⟩, fun _ _ => rfl,
      fun _ hq => hq, fun _ he _ => he⟩
    rw [hother t ht]
    exact hl

/-- **The timer interrupt wakes a thread that is still waiting.** -/
theorem Base.expire (h : Base F s) {t₀ : ThreadId} {c : Call} {th₀ : Thread}
    (hk : s.kont t₀ = .call c) (htimed : c.timed = true) (hl₀ : s.lookup t₀ = some th₀)
    (hst : th₀.state = .blocked) (hne : t₀ ≠ s.current) (harm : ∀ e ∈ s.timers, e.tid ≠ t₀) :
    Base F (s.expire t₀) := by
  have hok := h.threads t₀
  obtain ⟨older, hh⟩ := hok.waiting hk hl₀ hst
  have hlook : ∃ th', (s.expire t₀).lookup t₀ = some th' ∧ th'.state = .ready ∧
      th'.ipcState = .timedOut := by
    have hn := (ThreadTable.lookup_eq_some.mp hl₀).1
    have hl : s.sched.table.lookup t₀ = some th₀ := hl₀
    refine ⟨{ th₀ with ipcDeadline := 0, state := .ready, ipcState := .timedOut }, ?_, rfl, rfl⟩
    show (s.sched.expire t₀).table.lookup t₀ = _
    refine (ThreadTable.lookup_withThreadMut _ (by intro _; rfl) t₀ t₀).trans ?_
    have h1 : (s.sched.table.withThreadMut t₀ fun th => { th with ipcDeadline := 0 }).lookup t₀ =
        some { th₀ with ipcDeadline := 0 } := by
      refine (ThreadTable.lookup_withThreadMut _ (by intro _; rfl) t₀ t₀).trans ?_
      rw [if_pos rfl, hl]
      rfl
    unfold Sched.wake
    simp only [hn, Bool.false_eq_true, if_false, h1, if_true]
    rw [ThreadTable.lookup_withThreadMut _ (by intro _; rfl) t₀ t₀, if_pos rfl, h1]
    rfl
  have hother : ∀ t, t ≠ t₀ → (s.expire t₀).lookup t = s.lookup t := fun t ht =>
    Sched.lookup_expire_of_ne s.sched ht
  have hhist : (s.expire t₀).history t₀ = .expired :: .parked c :: older := by
    show Function.update _ _ _ _ = _
    rw [Function.update_self, ← hh]
  obtain ⟨th', hl', hst', hipc'⟩ := hlook
  refine h.of_frame t₀ ?_ (h.noWait4_of hother hl' (by rw [hipc']; simp)) h.channels
    h.notifications h.timers
    ⟨fun c' hc' => ?_, fun hx => ?_, fun q hq => ?_, fun e he het => absurd het (harm e he), ?_⟩
    fun t ht => ?_
  · refine h.sched.expire fun th hl => ⟨?_, hne, False.elim⟩
    have hl'' : s.lookup t₀ = some th := hl
    rw [hl₀, Option.some.injEq] at hl''
    rw [← hl'', hst]
    simp
  · have hcc : c = c' := Kont.call.inj (hk.symm.trans hc')
    subst hcc
    refine ⟨th', hl', ?_⟩
    rw [hhist]
    exact .expired (by rw [hst']; simp) hipc' htimed
  · have : s.kont t₀ = .exited := hx
    rw [hk] at this
    cases this
  · obtain ⟨c', hc', hcq, -⟩ := hok.queued q hq
    refine ⟨c', hc', hcq, fun o older' hc => ?_⟩
    rw [hhist] at hc
    cases hc
  · show ∀ newer c' o' older', (s.expire t₀).history t₀ = _ → _
    rw [hhist, ← hh]
    exact explained_cons hok.explained fun _ _ hc => by cases hc
  · refine ⟨rfl, Function.update_of_ne ht _ _, fun th hl => ⟨th, ?_, .refl th⟩, fun _ _ => rfl,
      fun _ hq => hq, fun _ he _ => he⟩
    rw [hother t ht]
    exact hl

/-- **The current thread parks**: it is now in a queue, perhaps in the timer queue, and inside
its call. -/
theorem Base.blocked (h : Base F s) (timers : List TimerDeadline)
    (huser : s.kont s.current = .user) {th₀ : Thread}
    (hl₀ : s.lookup s.current = some th₀) (hrun : th₀.state = .running) {c : Call}
    {ipc : IpcState} (hipc : ipc ≠ .blockedOnWait4) {channels : ℕ → Option ChannelInner}
    {notifications : ℕ → Option Notification}
    (hch : ∀ ch c, channels ch = some c → c.Wf) (hno : ∀ n o, notifications n = some o → o.Wf)
    (hq : ∀ q t, Kernel.Queued { s with channels, notifications, timers } q t →
      s.Queued q t ∨ (q = c.queue ∧ t = s.current))
    (hnodup : (timers.map (·.tid)).Nodup)
    (htimers : ∀ e ∈ timers, e ∈ s.timers ∨ (e.tid = s.current ∧ c.timed = true)) :
    Base F (Kernel.blocked { s with channels, notifications, timers } c ipc) := by
  have hok := h.threads s.current
  set s' := Kernel.blocked { s with channels, notifications, timers } c ipc with hs'
  have hsched : s'.sched = s.sched.markBlocked ipc := rfl
  have hcur : s'.sched.current = s.sched.current := by
    rw [hsched, Sched.markBlocked]
    split <;> rfl
  have hlook : s'.lookup s.current = some { th₀ with state := .blocked, ipcState := ipc } := by
    have := Sched.lookup_markBlocked (s := s.sched) hl₀ ipc
    rw [← hsched, hcur] at this
    exact this
  have hother : ∀ t, t ≠ s.current → s'.lookup t = s.lookup t := by
    intro t ht
    show (s.sched.markBlocked ipc).table.lookup t = _
    unfold Sched.markBlocked
    split
    · rfl
    · exact (ThreadTable.lookup_withThreadMut _ (by intro _; rfl) _ t).trans (if_neg ht)
  have hkont : s'.kont = Function.update s.kont s.current (.call c) := rfl
  have hhist : s'.history = Function.update s.history s.current
      (.parked c :: s.history s.current) := rfl
  have hinv : s.sched.Invariant False := ⟨h.sched, fun th hl => by
    have hl' : s.lookup s.current = some th := hl
    rw [hl₀, Option.some.injEq] at hl'
    rw [← hl', hrun]⟩
  refine h.of_frame s.current (hinv.markBlocked ipc) (h.noWait4_of hother hlook hipc) hch hno hnodup
    ⟨fun c' hc' => ?_, fun hx => ?_, fun q hq' => ?_, fun e he het => ?_, ?_⟩ fun t ht => ?_
  · rw [hkont, Function.update_self] at hc'
    cases hc'
    refine ⟨_, hlook, ?_⟩
    rw [hhist, Function.update_self]
    exact .waiting rfl
  · rw [hkont, Function.update_self] at hx
    cases hx
  · rcases hq q s.current hq' with hq' | ⟨rfl, -⟩
    · exact absurd hq' (hok.not_queued_of_user huser q)
    · refine ⟨c, by rw [hkont, Function.update_self], rfl, fun o older hc => ?_⟩
      rw [hhist, Function.update_self] at hc
      cases hc
  · rcases htimers e he with he' | ⟨-, htimed⟩
    · exact absurd het (hok.not_armed_of_user huser e he')
    · cases c with
      | recvTimeout ch n =>
        refine ⟨ch, n, by rw [hkont, Function.update_self], fun older hc => ?_⟩
        rw [hhist, Function.update_self] at hc
        cases hc
      | send _ _ => cases htimed
      | recv _ _ => cases htimed
      | notifyWait _ => cases htimed
  · rw [hhist, Function.update_self]
    exact explained_cons hok.explained fun _ _ hc => by cases hc
  · refine ⟨by rw [hkont, Function.update_of_ne ht], by rw [hhist, Function.update_of_ne ht],
      fun th hl => ⟨th, by rw [hother t ht]; exact hl, .refl th⟩, fun _ _ => rfl, fun q hq' => ?_,
      fun e he het => ?_⟩
    · rcases hq q t hq' with hq' | ⟨-, ht'⟩
      · exact hq'
      · exact absurd ht' ht
    · rcases htimers e he with he' | ⟨ht', -⟩
      · exact he'
      · exact absurd (het.symm.trans ht') ht

/-! ## Switching -/

/-- `schedule` is a frame for every thread. -/
theorem Base.schedule (h : Base F s) : Base F { s with sched := s.sched.schedule } := by
  rcases Sche.ReadyQueue.dequeueReady_spec h.sched.valid with ⟨hnone, -⟩ | ⟨p, n, rest, rq, hd, -⟩
  · have heq : s.sched.schedule = s.sched := by
      unfold Sched.schedule
      rw [hnone]
    rw [heq]
    exact h
  · obtain ⟨nth, cur, hnl, hnst, hcl, -, -, -, hlook⟩ := h.sched.schedule_eq hd
    have hinv := h.sched.schedule hd fun _ _ _ => False.elim
    have hsim : ∀ t th, s.lookup t = some th →
        ∃ th', s.sched.schedule.table.lookup t = some th' ∧ Similar th th' := by
      intro t th hl
      have hl' : s.sched.table.lookup t = some th := hl
      rw [hlook]
      by_cases htn : t = n
      · rw [htn, hnl, Option.some.injEq] at hl'
        subst hl'
        rw [if_pos htn]
        exact ⟨_, rfl, by simp [hnst], by simp [hnst], rfl⟩
      · rw [if_neg htn]
        by_cases htc : t = s.sched.current
        · rw [htc, hcl, Option.some.injEq] at hl'
          subst hl'
          rw [if_pos htc]
          refine ⟨_, rfl, ?_, ?_, Sched.yielded_ipcState cur⟩
          · rw [Sched.yielded_state]
            split <;> simp_all
          · intro hdy
            rw [Sched.yielded_state, hdy]
            rfl
        · rw [if_neg htc]
          exact ⟨th, hl', .refl th⟩
    refine ⟨hinv.toConsistent, fun t th hl => ?_, h.channels, h.notifications, h.timers,
      fun t => (h.threads t).frame ⟨rfl, rfl, hsim t, fun _ _ => rfl, fun _ hq => hq,
        fun _ he _ => he⟩⟩
    have hl' : s.sched.schedule.table.lookup t = some th := hl
    rw [hlook] at hl'
    split at hl'
    · cases hl'
      exact h.noWait4 n nth hnl
    · split at hl'
      · cases hl'
        rw [Sched.yielded_ipcState]
        exact h.noWait4 _ cur hcl
      · exact h.noWait4 t th hl'

/-- A running thread that had been popped or had expired returns from its call. -/
theorem Base.complete (h : Base F s) {c : Call} {o : Outcome}
    (hq : ∀ q, ¬ s.Queued q s.current) (harm : ∀ e ∈ s.timers, e.tid ≠ s.current)
    (hexp : Explained F s.current c o (s.history s.current)) : Base F (s.complete c o) := by
  have hok := h.threads s.current
  have hkont : (s.complete c o).kont = Function.update s.kont s.current .user := rfl
  have hhist : (s.complete c o).history = Function.update s.history s.current
      (.completed c o :: s.history s.current) := rfl
  refine h.of_frame s.current h.sched h.noWait4 h.channels h.notifications h.timers
    ⟨fun c' hc' => ?_, fun hx => ?_, fun q hq' => absurd hq' (hq q),
      fun e he het => absurd het (harm e he), ?_⟩ fun t ht => ?_
  · rw [hkont, Function.update_self] at hc'
    cases hc'
  · rw [hkont, Function.update_self] at hx
    cases hx
  · rw [hhist, Function.update_self]
    refine explained_cons hok.explained fun c' o' hc => ?_
    cases hc
    exact hexp
  · exact ⟨by rw [hkont, Function.update_of_ne ht], by rw [hhist, Function.update_of_ne ht],
      fun th hl => ⟨th, hl, .refl th⟩, fun _ _ => rfl, fun _ hq => hq, fun _ he _ => he⟩

/-- Setting the deadline of a thread, and a timer queue with no new entries. -/
theorem Base.setDeadline (h : Base F s) (t₀ : ThreadId) (d : ℕ) {timers : List TimerDeadline}
    (hnodup : (timers.map (·.tid)).Nodup) (htimers : ∀ e ∈ timers, e ∈ s.timers) :
    Base F { s with
      sched := { s.sched with table := s.sched.table.withThreadMut t₀ fun th =>
        { th with ipcDeadline := d } }
      timers := timers } := by
  set f : Thread → Thread := fun th => { th with ipcDeadline := d }
  have hlook : ∀ t, (s.sched.table.withThreadMut t₀ f).lookup t =
      if t = t₀ then (s.lookup t₀).map f else s.lookup t :=
    ThreadTable.lookup_withThreadMut s.sched.table (f := f) (fun _ => rfl) t₀
  refine ⟨h.sched.touch (f := f) (fun _ => rfl) (fun _ => rfl) (fun _ => rfl) (fun _ => rfl)
      (fun _ hw => hw) t₀, fun t th hl => ?_, h.channels, h.notifications, hnodup,
    fun t => (h.threads t).frame ⟨rfl, rfl, fun th hl => ?_, fun _ _ => rfl, fun _ hq => hq,
      fun e he _ => htimers e he⟩⟩
  · have hl' := (hlook t).symm.trans hl
    split at hl'
    · obtain ⟨th', hth', rfl⟩ := Option.map_eq_some_iff.mp hl'
      exact h.noWait4 t₀ th' hth'
    · exact h.noWait4 t th hl'
  · by_cases ht : t = t₀
    · refine ⟨f th, (hlook t).trans ?_, Iff.rfl, id, rfl⟩
      rw [if_pos ht, ← ht, hl]
      rfl
    · exact ⟨th, (hlook t).trans (by rw [if_neg ht, hl]), .refl th⟩

/-- The queues after a channel has been written. -/
theorem Kernel.queued_setChannel {k : ℕ} {d : ChannelInner} {q : WaitQueue}
    (hq : (s.setChannel k d).Queued q t) :
    (q = .receivers k ∧ Waits d.receiverQueue t) ∨ (q = .senders k ∧ Waits d.senderQueue t) ∨
      (q ≠ .receivers k ∧ q ≠ .senders k ∧ s.Queued q t) := by
  have hself : (s.setChannel k d).channels k = some d := Function.update_self ..
  have hother : ∀ j, j ≠ k → (s.setChannel k d).channels j = s.channels j := fun j hj =>
    Function.update_of_ne hj _ _
  cases q with
  | receivers j =>
    obtain ⟨c, hc, hw⟩ := hq
    by_cases hj : j = k
    · rw [hj, hself] at hc
      cases hc
      exact .inl ⟨by rw [hj], hw⟩
    · rw [hother j hj] at hc
      exact .inr (.inr ⟨by simpa using hj, by simp, c, hc, hw⟩)
  | senders j =>
    obtain ⟨c, hc, hw⟩ := hq
    by_cases hj : j = k
    · rw [hj, hself] at hc
      cases hc
      exact .inr (.inl ⟨by rw [hj], hw⟩)
    · rw [hother j hj] at hc
      exact .inr (.inr ⟨by simp, by simpa using hj, c, hc, hw⟩)
  | waiters j => exact .inr (.inr ⟨by simp, by simp, hq⟩)

theorem Base.wf_setChannel (h : Base F s) {ch : ℕ} {c' : ChannelInner} (hc' : c'.Wf) :
    ∀ k d, (s.setChannel ch c').channels k = some d → d.Wf := by
  intro k d hd
  by_cases hk : k = ch
  · rw [hk] at hd
    have hd' : Function.update s.channels ch (some c') ch = some d := hd
    rw [Function.update_self] at hd'
    cases hd'
    exact hc'
  · exact h.channels k d ((Function.update_of_ne hk _ _).symm.trans hd)

/-- After `cancel_receive` the thread is in no queue of its call. -/
theorem Base.cancelReceive (h : Base F s) (ch : ℕ) (t₀ : ThreadId) :
    Base F (s.cancelReceive ch t₀) ∧ (s.cancelReceive ch t₀).current = s.current ∧
      (s.cancelReceive ch t₀).history = s.history ∧ (s.cancelReceive ch t₀).timers = s.timers ∧
      (s.cancelReceive ch t₀).lookup = s.lookup ∧
      ∀ q t, (s.cancelReceive ch t₀).Queued q t → s.Queued q t ∧ (q = .receivers ch → t ≠ t₀) := by
  unfold Kernel.cancelReceive
  cases hc : s.channels ch with
  | none =>
    refine ⟨h, rfl, rfl, rfl, rfl, fun q t hq => ⟨hq, ?_⟩⟩
    rintro rfl
    obtain ⟨d, hd, -⟩ := hq
    rw [hc] at hd
    cases hd
  | some c =>
    obtain ⟨hwf, hsub⟩ := ChannelInner.cancelReceive_spec (h.channels ch c hc) t₀
    have hq : ∀ q t, (s.setChannel ch (c.cancelReceive t₀)).Queued q t →
        s.Queued q t ∧ (q = .receivers ch → t ≠ t₀) := by
      intro q t hq
      rcases Kernel.queued_setChannel hq with ⟨rfl, hw⟩ | ⟨rfl, hw⟩ | ⟨hr, -, hq⟩
      · exact ⟨⟨c, hc, (hsub t hw).1⟩, fun _ => (hsub t hw).2⟩
      · exact ⟨⟨c, hc, hw⟩, fun hc => by cases hc⟩
      · exact ⟨hq, fun hc => absurd hc hr⟩
    exact ⟨h.dequeue (h.wf_setChannel hwf) h.notifications fun q t hq' => (hq q t hq').1, rfl, rfl,
      rfl, rfl, hq⟩

/-- A thread's only timer, cancelled. -/
theorem tid_ne_of_mem_eraseP {l : List TimerDeadline} (hn : (l.map (·.tid)).Nodup)
    {e : TimerDeadline} (he : e ∈ l.eraseP fun e => e.tid == t) : e.tid ≠ t := by
  induction l with
  | nil => cases he
  | cons a l ih =>
    rw [List.map_cons, List.nodup_cons] at hn
    by_cases ha : a.tid = t
    · rw [List.eraseP_cons_of_pos (by simpa using ha)] at he
      rintro rfl
      rw [ha] at hn
      exact hn.1 (List.mem_map_of_mem he)
    · rw [List.eraseP_cons_of_neg (by simpa using ha)] at he
      rcases List.mem_cons.mp he with rfl | he
      · exact ha
      · exact ih hn.2 he

section Resume

variable {c : Call} {o : Outcome} {th : Thread}

/-- A call that has returned leaves its thread running in user code. -/
theorem Base.inv_complete {s₁ : Kernel} (hb : Base F (s₁.complete c o))
    (hcur : s₁.current = s.current) (hl : s₁.lookup s.current = some th)
    (hrun : th.state = .running) : Inv F (s₁.complete c o) := by
  refine ⟨hb, .inl ⟨Function.update_self .., th, ?_, hrun⟩⟩
  show s₁.lookup s₁.current = some th
  rw [hcur]
  exact hl

/-- A call that a partner has popped, and that has no timeout to cancel. -/
theorem Base.resume_popped (h : Base F s) (hl : s.lookup s.current = some th)
    (hrun : th.state = .running) (hk : s.kont s.current = .call c) (htimed : c.timed = false)
    (hnq : ∀ q, ¬ s.Queued q s.current) (hexp : Explained F s.current c o (s.history s.current)) :
    Inv F (s.complete c o) := by
  refine (h.complete hnq (fun e he het => ?_) hexp).inv_complete rfl hl hrun
  have := ((h.threads s.current).armed_of_call hk he het).1
  rw [htimed] at this
  cases this

/-- A call that a partner has popped before its timeout: the timer is cancelled. -/
theorem Base.resume_popped_timed (h : Base F s) (hl : s.lookup s.current = some th)
    (hrun : th.state = .running) (hnq : ∀ q, ¬ s.Queued q s.current)
    (hexp : Explained F s.current c o (s.history s.current)) :
    Inv F ((s.cancelIpcTimeout s.current).complete c o) := by
  have hsub : ∀ e ∈ s.timers.eraseP fun e => e.tid == s.current, e ∈ s.timers :=
    fun e he => List.mem_of_mem_eraseP he
  have hgone : ∀ e ∈ s.timers.eraseP fun e => e.tid == s.current, e.tid ≠ s.current :=
    fun e he => tid_ne_of_mem_eraseP h.timers he
  have hbase : Base F (s.cancelIpcTimeout s.current) :=
    h.setDeadline s.current 0 ((List.eraseP_sublist.map _).nodup h.timers) hsub
  have hlook : (s.cancelIpcTimeout s.current).lookup s.current =
      some { th with ipcDeadline := 0 } := by
    have hl' : s.sched.table.lookup s.current = some th := hl
    refine (ThreadTable.lookup_withThreadMut _ (by intro _; rfl) _ _).trans ?_
    rw [if_pos rfl, hl']
    rfl
  exact (hbase.complete hnq hgone hexp).inv_complete rfl hlook hrun

/-- A call whose timeout has expired leaves the queue it waited in. -/
theorem Base.resume_expired (h : Base F s) (hl : s.lookup s.current = some th)
    (hrun : th.state = .running) {ch n : ℕ} (hk : s.kont s.current = .call (.recvTimeout ch n))
    {older : List Event}
    (hhist : s.history s.current = .expired :: .parked (.recvTimeout ch n) :: older) :
    Inv F ((s.cancelReceive ch s.current).complete (.recvTimeout ch n) (.value (-etimedout))) := by
  have hok := h.threads s.current
  obtain ⟨hbase, hcur, hh, htim, hlk, hq⟩ := h.cancelReceive ch s.current
  refine (hbase.complete (fun q hq' => ?_) (fun e he het => ?_) ?_).inv_complete hcur
    (by rw [hlk]; exact hl) hrun
  · rw [hcur] at hq'
    obtain ⟨hq', hne⟩ := hq q _ hq'
    exact hne (hok.queued_of_call hk hq').1 rfl
  · rw [htim] at he
    rw [hcur] at het
    exact (hok.armed_of_call hk he het).2 _ hhist
  · rw [hcur, hh, hhist]
    exact .inr ⟨_, rfl, rfl, rfl⟩

/-- **A thread that runs again returns from its call**, if it was in one, and with a reason. -/
theorem Base.resume (h : Base F s) (hl : s.lookup s.current = some th)
    (hrun : th.state = .running) : Inv F s.resume := by
  have hok := h.threads s.current
  have hl' : s.sched.table.lookup s.current = some th := hl
  unfold Kernel.resume
  cases hk : s.kont s.current with
  | user => exact ⟨h, .inl ⟨hk, th, hl, hrun⟩⟩
  | exited =>
    obtain ⟨th', hl'', hst⟩ := hok.exits hk
    rw [hl, Option.some.injEq] at hl''
    rw [← hl'', hrun] at hst
    cases hst
  | call c =>
    obtain ⟨th', hl'', hp⟩ := hok.calls c hk
    rw [hl, Option.some.injEq] at hl''
    subst hl''
    generalize hhist : s.history s.current = hist at hp
    cases hp with
    | waiting hst =>
      rw [hrun] at hst
      cases hst
    | popped _ hipc hd =>
      have hnq : ∀ q, ¬ s.Queued q s.current := fun q hq =>
        (hok.queued_of_call hk hq).2 _ _ hhist
      cases c with
      | send ch m =>
        exact h.resume_popped hl hrun hk rfl hnq (.inl ⟨_, _, hhist, fun n hn => by cases hn⟩)
      | notifyWait k =>
        exact h.resume_popped hl hrun hk rfl hnq (.inl ⟨_, _, hhist, fun n hn => by cases hn⟩)
      | recv ch n =>
        refine h.resume_popped hl hrun hk rfl hnq (.inl ⟨_, _, hhist, fun n' hn => ?_⟩)
        cases hn
        obtain ⟨m, ho, hF, hread⟩ := hd n rfl
        exact ⟨m, ho, hF, by rw [hread]⟩
      | recvTimeout ch n =>
        have hany : (s.sched.table.lookup s.current).any (fun th => th.ipcState == .timedOut) =
            false := by
          rw [hl']
          simpa using hipc
        simp only [Kernel.finish, hany, Bool.false_eq_true, if_false]
        refine h.resume_popped_timed hl hrun hnq (.inl ⟨_, _, hhist, fun n' hn => ?_⟩)
        cases hn
        obtain ⟨m, ho, hF, hread⟩ := hd n rfl
        exact ⟨m, ho, hF, congrArg Outcome.bytes hread⟩
    | expired _ hipc htimed =>
      cases c with
      | send _ _ => cases htimed
      | recv _ _ => cases htimed
      | notifyWait _ => cases htimed
      | recvTimeout ch n =>
        have hany : (s.sched.table.lookup s.current).any (fun th => th.ipcState == .timedOut) =
            true := by
          rw [hl']
          simpa using hipc
        simp only [Kernel.finish, hany, if_true]
        exact h.resume_expired hl hrun hk hhist

end Resume

end QuackOS.Ipc
