import QuackOS.Ipc.Kernel
import QuackOS.Lib.SortedQueue

/-!
# The timer queue and the comparator

`kernel/timer.rs` together with the compare register of the physical timer
(`arch/aarch64/src/base/timer.rs`).  Two parties program the register: `set_ipc_timeout` and
`cancel_ipc_timeout`, for the earliest deadline in the queue, and `set_next_trigger`, which the
interrupt handler calls for the periodic tick, before `check_timeouts` and whatever the queue
holds.  The module says that the tick is only restored when the queue is empty; `onTime_iff` says
when the register is nevertheless in time for the queue.

Time is the counter `CNTPCT_EL0`, which goes on by any amount between and during the operations.
-/

namespace QuackOS.Ipc

open QuackOS.Sche (ThreadId Sched)

/-- Timer interrupt frequency in Hz. -/
def ticksPerSec : ℕ := 100

/-- The kernel with `CNTP_CVAL_EL0`, the counter value at which the physical timer fires. -/
structure Timer where
  kernel : Kernel
  cval : ℕ

namespace Timer

/-- The timer queue. -/
def queue (s : Timer) : List TimerDeadline := s.kernel.timers

/-- `get_time`. -/
def now (s : Timer) : ℕ := s.kernel.clock

/-- The counter goes on. -/
def elapse (s : Timer) (ticks : ℕ) : Timer :=
  { s with kernel := { s.kernel with clock := s.kernel.clock + ticks } }

/-- `set_timer_cval`. -/
def setTimerCval (s : Timer) (cval : ℕ) : Timer := { s with cval }

/-- `set_timer_ticks`: a write to `CNTP_TVAL_EL0` sets the comparator relative to the counter.  Its
32 bits hold the ticks of the period, since `CNTFRQ_EL0` has 32 bits too. -/
def setTimerTicks (s : Timer) (ticks : ℕ) : Timer := s.setTimerCval ((s.now + ticks) % 2 ^ 64)

/-- `set_next_trigger`. -/
def setNextTrigger (s : Timer) : Timer := s.setTimerTicks (s.kernel.freq / ticksPerSec)

/-- The deadline `set_ipc_timeout` computes. -/
def deadlineAfter (s : Timer) (timeoutMs : ℕ) : ℕ :=
  (s.now + timeoutMs * s.kernel.freq / 1000) % 2 ^ 64

/-- `set_ipc_timeout`: the register follows when the new entry is the first. -/
def setIpcTimeout (s : Timer) (tid : ThreadId) (timeoutMs : ℕ) : Timer :=
  if timeoutMs = 0 then s
  else
    let deadline := s.deadlineAfter timeoutMs
    let pos := s.queue.findIdx fun e => deadline < e.deadlineTicks
    let s := { s with kernel := s.kernel.setIpcTimeout tid timeoutMs }
    if pos = 0 then s.setTimerCval deadline else s

/-- `cancel_ipc_timeout`: the register follows when the first of several entries went. -/
def cancelIpcTimeout (s : Timer) (tid : ThreadId) : Timer :=
  let pos := s.queue.findIdx? fun e => e.tid == tid
  let s := { s with kernel := s.kernel.cancelIpcTimeout tid }
  match pos, s.queue with
  | some 0, e :: _ => s.setTimerCval e.deadlineTicks
  | _, _ => s

/-- `check_timeouts`: the register is left as it is. -/
def checkTimeouts (s : Timer) : Timer := { s with kernel := s.kernel.checkTimeouts }

/-- The timer branch of `dispatch_irq`, which takes some ticks between its two readings of the
counter. -/
def dispatchIrq (s : Timer) (handling : ℕ) : Timer :=
  let s := (s.setNextTrigger.elapse handling).checkTimeouts
  { s with kernel := { s.kernel with sched := s.kernel.sched.schedule } }

/-- The queue is empty at boot; the register and everything else is arbitrary. -/
def init (kernel : Kernel) (cval : ℕ) : Timer := ⟨{ kernel with timers := [] }, cval⟩

end Timer

/-- The operations, with the time that has passed before each. -/
inductive TimerOp
  | setIpcTimeout (elapsed : ℕ) (tid : ThreadId) (timeoutMs : ℕ)
  | cancelIpcTimeout (elapsed : ℕ) (tid : ThreadId)
  | irq (elapsed handling : ℕ)

namespace Timer

def step (s : Timer) : TimerOp → Timer
  | .setIpcTimeout elapsed tid ms => (s.elapse elapsed).setIpcTimeout tid ms
  | .cancelIpcTimeout elapsed tid => (s.elapse elapsed).cancelIpcTimeout tid
  | .irq elapsed handling => (s.elapse elapsed).dispatchIrq handling

/-! ## What the operations do to the queue and the register -/

@[simp] theorem queue_elapse (s : Timer) (n : ℕ) : (s.elapse n).queue = s.queue := rfl

@[simp] theorem cval_elapse (s : Timer) (n : ℕ) : (s.elapse n).cval = s.cval := rfl

@[simp] theorem now_elapse (s : Timer) (n : ℕ) : (s.elapse n).now = s.now + n := rfl

@[simp] theorem setIpcTimeout_zero (s : Timer) (tid : ThreadId) : s.setIpcTimeout tid 0 = s := rfl

variable {s : Timer} {tid : ThreadId} {ms : ℕ}

theorem queue_setIpcTimeout (h : ms ≠ 0) : (s.setIpcTimeout tid ms).queue =
    SortedQueue.insert TimerDeadline.deadlineTicks ⟨s.deadlineAfter ms, tid⟩ s.queue := by
  unfold setIpcTimeout
  rw [if_neg h]
  have hq : (s.kernel.setIpcTimeout tid ms).timers =
      SortedQueue.insert TimerDeadline.deadlineTicks ⟨s.deadlineAfter ms, tid⟩ s.queue := by
    unfold Kernel.setIpcTimeout
    rw [if_neg h]
    rfl
  dsimp only
  split
  · exact hq
  · exact hq

/-- After `set_ipc_timeout` the register is the new deadline, if that is the first in the queue,
and else what it was. -/
theorem cval_setIpcTimeout (h : ms ≠ 0) : (s.setIpcTimeout tid ms).cval =
    if s.queue.findIdx (fun e => s.deadlineAfter ms < e.deadlineTicks) = 0 then s.deadlineAfter ms
    else s.cval := by
  unfold setIpcTimeout
  rw [if_neg h]
  dsimp only
  split
  · rfl
  · rfl

theorem queue_cancelIpcTimeout (s : Timer) (tid : ThreadId) :
    (s.cancelIpcTimeout tid).queue = s.queue.eraseP fun e => e.tid == tid := by
  unfold cancelIpcTimeout
  dsimp only
  split
  · rfl
  · rfl

/-- `cancel_ipc_timeout` programs the first deadline of the queue it leaves, or leaves the
register alone. -/
theorem cancelIpcTimeout_cases (s : Timer) (tid : ThreadId) :
    (∃ e, (s.cancelIpcTimeout tid).queue.head? = some e ∧
      (s.cancelIpcTimeout tid).cval = e.deadlineTicks) ∨
    (s.cancelIpcTimeout tid).cval = s.cval := by
  unfold cancelIpcTimeout
  dsimp only
  split
  case h_1 e rest hpos hq => exact .inl ⟨e, congrArg List.head? hq, rfl⟩
  case h_2 => exact .inr rfl

/-- One round of the second loop of `check_timeouts` has no business with the queue. -/
theorem timers_foldl_expire (k : Kernel) (tids : List ThreadId) :
    (tids.foldl Kernel.expire k).timers = k.timers := by
  induction tids generalizing k with
  | nil => rfl
  | cons t tids ih => exact (ih (k.expire t)).trans rfl

theorem queue_dispatchIrq (s : Timer) (handling : ℕ) : (s.dispatchIrq handling).queue =
    s.queue.dropWhile fun e => e.deadlineTicks ≤ s.now + handling :=
  timers_foldl_expire _ _

theorem cval_dispatchIrq (s : Timer) (handling : ℕ) :
    (s.dispatchIrq handling).cval = (s.now + s.kernel.freq / ticksPerSec) % 2 ^ 64 := rfl

/-! ## The invariant -/

/-- What the module promises of every state:
* `sorted` — index 0 is the earliest;
* `distinct` — a thread waits for one deadline at a time;
* `armed` — the timer fires no later than the earliest deadline. -/
structure OnTime (s : Timer) : Prop where
  sorted : SortedQueue.Sorted TimerDeadline.deadlineTicks s.queue
  distinct : (s.queue.map TimerDeadline.tid).Nodup
  armed : ∀ e ∈ s.queue, s.cval ≤ e.deadlineTicks

theorem OnTime.elapse (h : s.OnTime) (n : ℕ) : (s.elapse n).OnTime := ⟨h.sorted, h.distinct, h.armed⟩

/-- A timeout for a thread that has none is the only one that keeps one entry for each thread. -/
theorem nodup_setIpcTimeout_iff (hms : ms ≠ 0) :
    ((s.setIpcTimeout tid ms).queue.map TimerDeadline.tid).Nodup ↔
      (∀ e ∈ s.queue, e.tid ≠ tid) ∧ (s.queue.map TimerDeadline.tid).Nodup := by
  have hperm := (SortedQueue.insert_perm TimerDeadline.deadlineTicks
    ⟨s.deadlineAfter ms, tid⟩ s.queue).map TimerDeadline.tid
  rw [queue_setIpcTimeout hms, hperm.nodup_iff, List.map_cons, List.nodup_cons]
  simp only [List.mem_map, not_exists, not_and, ne_eq]

theorem OnTime.setIpcTimeout (h : s.OnTime) (hms : ms ≠ 0) (htid : ∀ e ∈ s.queue, e.tid ≠ tid) :
    (s.setIpcTimeout tid ms).OnTime := by
  have hqueue : (s.setIpcTimeout tid ms).queue = _ := queue_setIpcTimeout hms
  have hsorted := h.sorted.insert ⟨s.deadlineAfter ms, tid⟩
  refine ⟨hqueue ▸ hsorted, (nodup_setIpcTimeout_iff hms).mpr ⟨htid, h.distinct⟩, fun e he => ?_⟩
  rw [hqueue] at he
  rw [cval_setIpcTimeout hms]
  split
  case isTrue hpos =>
    -- the new entry is the first one, and the others are no earlier
    exact hsorted.le_of_head ((SortedQueue.head?_insert ..).trans (if_pos hpos)) he
  case isFalse hpos =>
    rcases SortedQueue.mem_insert.mp he with rfl | he
    · -- the entry that stays first has the register in time already
      have hhead := (SortedQueue.head?_insert TimerDeadline.deadlineTicks
        ⟨s.deadlineAfter ms, tid⟩ s.queue).trans (if_neg hpos)
      cases hq : s.queue with
      | nil =>
        rw [hq] at hpos
        exact absurd rfl hpos
      | cons first rest =>
        have hle := hsorted.le_of_head (hhead.trans (congrArg List.head? hq))
          (SortedQueue.mem_insert.mpr (.inl rfl))
        exact (h.armed first (by simp [hq])).trans hle
    · exact h.armed e he

theorem OnTime.cancelIpcTimeout (h : s.OnTime) (tid : ThreadId) :
    (s.cancelIpcTimeout tid).OnTime := by
  have hsub : (s.cancelIpcTimeout tid).queue.Sublist s.queue := by
    rw [queue_cancelIpcTimeout]
    exact List.eraseP_sublist
  have hsorted := h.sorted.sublist hsub
  refine ⟨hsorted, h.distinct.sublist (hsub.map _), fun e he => ?_⟩
  rcases cancelIpcTimeout_cases s tid with ⟨e', hhead, hcval⟩ | hcval
  · rw [hcval]
    exact hsorted.le_of_head hhead he
  · rw [hcval]
    exact h.armed e (hsub.subset he)

/-- An interrupt removes exactly the entries whose deadline has passed. -/
theorem OnTime.queue_dispatchIrq_eq_filter (h : s.OnTime) (handling : ℕ) :
    (s.dispatchIrq handling).queue = s.queue.filter fun e => s.now + handling < e.deadlineTicks := by
  rw [queue_dispatchIrq]
  exact h.sorted.dropWhile_eq_filter _

/-- The interrupt leaves the timer in time exactly when the next tick is no later than any
deadline that stays. -/
theorem OnTime.dispatchIrq_iff (h : s.OnTime) (handling : ℕ) :
    (s.dispatchIrq handling).OnTime ↔ ∀ e ∈ s.queue, s.now + handling < e.deadlineTicks →
      (s.now + s.kernel.freq / ticksPerSec) % 2 ^ 64 ≤ e.deadlineTicks := by
  have hqueue := h.queue_dispatchIrq_eq_filter handling
  have hmem : ∀ e, e ∈ (s.dispatchIrq handling).queue ↔
      e ∈ s.queue ∧ s.now + handling < e.deadlineTicks := by
    intro e
    rw [hqueue, List.mem_filter, decide_eq_true_iff]
  constructor
  · intro hafter e he hlater
    rw [← cval_dispatchIrq s handling]
    exact hafter.armed e ((hmem e).mpr ⟨he, hlater⟩)
  · intro htick
    have hsub : (s.dispatchIrq handling).queue.Sublist s.queue := hqueue ▸ List.filter_sublist
    refine ⟨h.sorted.sublist hsub, h.distinct.sublist (hsub.map _), fun e he => ?_⟩
    obtain ⟨he, hlater⟩ := (hmem e).mp he
    rw [cval_dispatchIrq]
    exact htick e he hlater

/-! ## Runs -/

/-- No timeout is set for a thread that has one, and no interrupt leaves a deadline in the queue
that comes before the next periodic tick. -/
def TickFirst (s : Timer) : TimerOp → Prop
  | .setIpcTimeout _ tid ms => ms = 0 ∨ ∀ e ∈ s.queue, e.tid ≠ tid
  | .cancelIpcTimeout _ _ => True
  | .irq elapsed handling => ∀ e ∈ s.queue, s.now + elapsed + handling < e.deadlineTicks →
      (s.now + elapsed + s.kernel.freq / ticksPerSec) % 2 ^ 64 ≤ e.deadlineTicks

/-- An interrupt removes the entries up to the time `check_timeouts` reads, and no others. -/
def ExpiresDue (s : Timer) : TimerOp → Prop
  | .irq elapsed handling => (s.step (.irq elapsed handling)).queue =
      s.queue.filter fun e => s.now + elapsed + handling < e.deadlineTicks
  | _ => True

theorem OnTime.step {op : TimerOp} (h : s.OnTime) (hop : s.TickFirst op) : (s.step op).OnTime := by
  cases op with
  | setIpcTimeout elapsed tid ms =>
    by_cases hms : ms = 0
    · subst hms
      exact h.elapse elapsed
    · exact (h.elapse elapsed).setIpcTimeout hms (hop.resolve_left hms)
  | cancelIpcTimeout elapsed tid => exact (h.elapse elapsed).cancelIpcTimeout tid
  | irq elapsed handling => exact ((h.elapse elapsed).dispatchIrq_iff handling).mpr hop

theorem OnTime.not_step {op : TimerOp} (h : s.OnTime) (hop : ¬ s.TickFirst op) :
    ¬ (s.step op).OnTime := by
  cases op with
  | setIpcTimeout elapsed tid ms =>
    obtain ⟨hms, htid⟩ := not_or.mp hop
    exact fun hafter => htid ((nodup_setIpcTimeout_iff hms).mp hafter.distinct).1
  | cancelIpcTimeout elapsed tid => exact absurd trivial hop
  | irq elapsed handling =>
    exact fun hafter => hop (((h.elapse elapsed).dispatchIrq_iff handling).mp hafter)

theorem OnTime.expiresDue (h : s.OnTime) (op : TimerOp) : s.ExpiresDue op := by
  cases op with
  | setIpcTimeout elapsed tid ms => trivial
  | cancelIpcTimeout elapsed tid => trivial
  | irq elapsed handling => exact (h.elapse elapsed).queue_dispatchIrq_eq_filter handling

theorem onTime_init (kernel : Kernel) (cval : ℕ) : (init kernel cval).OnTime :=
  ⟨SortedQueue.sorted_nil, List.nodup_nil, fun _ he => nomatch he⟩

/-- **The queue and the comparator are right exactly as long as the periodic tick comes before the
deadlines.**  In every state of a run the queue is sorted, has one entry for each thread and the
register programmed in time, and every interrupt removes what is due, if and only if each timeout
was set for a thread without one and no interrupt left an entry that falls due before the tick it
programmed. -/
theorem onTime_iff (kernel : Kernel) (cval : ℕ) (ops : List TimerOp) :
    ((∀ pre, pre <+: ops → (Run.exec step (init kernel cval) pre).OnTime) ∧
      Run.Along step ExpiresDue (init kernel cval) ops) ↔
      Run.Along step TickFirst (init kernel cval) ops := by
  have hstep : ∀ s op, OnTime s → TickFirst s op → OnTime (step s op) :=
    fun s op hs hop => hs.step hop
  have hbreak : ∀ s op, OnTime s → ¬ TickFirst s op → ¬ OnTime (step s op) :=
    fun s op hs hop => hs.not_step hop
  have hstart := onTime_init kernel cval
  rw [Run.forall_prefix_iff_along (fun _ hs => hs) hstep hbreak hstart ops]
  refine ⟨And.left, fun h => ⟨h, ?_⟩⟩
  exact Run.along_of_invariant hstep (fun _ op hs _ => hs.expiresDue op) hstart h

/-- Two threads wait, for 5 and for 8 milliseconds at 62.5 MHz; the timer fires when the first
deadline is reached. -/
def twoTimeouts : List TimerOp :=
  [.setIpcTimeout 0 ⟨1, 1⟩ 5, .setIpcTimeout 0 ⟨2, 1⟩ 8, .irq 312500 0]

/-- The second thread's deadline is counter value 500000, and the comparator is left at 937500. -/
theorem twoTimeouts_late :
    ¬ ∀ pre, pre <+: twoTimeouts → (Run.exec step
      (init (Kernel.boot (fun _ => false) (fun _ => false) 62500000) 0) pre).OnTime := by
  intro h
  have hlate := (h _ (List.prefix_refl _)).armed ⟨500000, ⟨2, 1⟩⟩ (by decide +kernel)
  revert hlate
  decide +kernel

end Timer

end QuackOS.Ipc
