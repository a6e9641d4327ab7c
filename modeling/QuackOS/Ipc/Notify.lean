import QuackOS.Ipc.Channel
import QuackOS.Lib.Run
import QuackOS.Lib.Semaphore

/-!
# Notifications as binary semaphores

`kernel/ipc/notification.rs` says that a notification is a binary semaphore.  The steps under the
table lock (`Notification.signal`, `Notification.wait`) are run here in any order by any threads.

* `Notification.event` — what a step did, read off its result and the object before it;
* `runs_trace` — these are the events of a semaphore whose queue is the ring's list;
* `notification_semaphore` — what that gives of every run.
-/

namespace QuackOS.Ipc

open QuackOS.Sche (ThreadId)
open Semaphore

/-- A step on one notification. -/
inductive NotifyOp
  | signal
  | wait (tid : ThreadId)
  deriving DecidableEq

namespace Notification

/-- One step. -/
def step (n : Notification) : NotifyOp → Notification
  | .signal => n.signal.2
  | .wait tid => (n.wait tid).2

/-- What a step does: a signal wakes the waiter it returns; if there is none, it is stored, or
lost on a flag that is set.  A wait returns at once, blocks, or is refused. -/
def event (n : Notification) : NotifyOp → Event ThreadId
  | .signal =>
      match n.signal.1 with
      | some waiter => .woke waiter
      | none => if n.signaled then .lost else .stored
  | .wait tid =>
      match (n.wait tid).1 with
      | .ok false => .taken tid
      | .ok true => .parked tid
      | .error _ => .refused tid

/-- The events of a run. -/
def trace (n : Notification) : List NotifyOp → List (Event ThreadId)
  | [] => []
  | op :: ops => n.event op :: trace (n.step op) ops

/-- The threads that wait, in order. -/
def waiters (n : Notification) : List ThreadId := n.waitQueue.toList waitQueueCap

/-- The semaphore that a notification is. -/
def semaphore (n : Notification) : Semaphore.State ThreadId := ⟨n.signaled, n.waiters⟩

/-- The ring has no holes. -/
def Sound (n : Notification) : Prop := Ring.Filled waitQueueCap n.waitQueue

theorem sound_new : new.Sound := Ring.filled_empty (by decide)

variable {n : Notification}

theorem signal_nil (h : n.Sound) (hnil : n.waiters = []) :
    n.signal = (none, { n with signaled := true }) := by
  unfold signal
  rw [Ring.pop_nil h hnil]

theorem signal_cons (h : n.Sound) {t : ThreadId} {l : List ThreadId} (hcons : n.waiters = t :: l) :
    ∃ n', n.signal = (some t, n') ∧ n'.Sound ∧ n'.signaled = n.signaled ∧ n'.waiters = l := by
  obtain ⟨r, hpop, -, hfilled, hlist⟩ := Ring.pop_cons h hcons
  unfold signal
  rw [hpop]
  exact ⟨_, rfl, hfilled, rfl, hlist⟩

/-- A step of the notification is a step of the semaphore. -/
theorem step_semaphore (h : n.Sound) (op : NotifyOp) :
    (n.step op).Sound ∧ Step n.semaphore (n.event op) (n.step op).semaphore := by
  cases op with
  | signal =>
    cases hw : n.waiters with
    | nil =>
      have hsignal := signal_nil h hw
      simp only [step, event, hsignal, semaphore, waiters] at hw ⊢
      refine ⟨h, ?_⟩
      rw [hw]
      cases n.signaled with
      | true => exact .lost
      | false => exact .stored
    | cons t l =>
      obtain ⟨n', hsignal, hsound, hflag, hlist⟩ := signal_cons h hw
      simp only [step, event, hsignal, semaphore, hw, hflag, hlist]
      exact ⟨hsound, .woke n.signaled t l⟩
  | wait tid =>
    cases hs : n.signaled with
    | true =>
      have hwait : n.wait tid = (.ok false, { n with signaled := false }) := by
        rw [wait, if_pos hs]
      simp only [step, event, hwait, semaphore, hs]
      exact ⟨h, .taken tid n.waiters⟩
    | false =>
      have hns : ¬ n.signaled = true := by rw [hs]; exact Bool.false_ne_true
      cases hp : n.waitQueue.push waitQueueCap tid with
      | none =>
        have hwait : n.wait tid = (.error .channelTableFull, n) := by
          rw [wait, if_neg hns, hp]
        simp only [step, event, hwait, semaphore, hs]
        exact ⟨h, .refused tid n.waiters⟩
      | some q =>
        obtain ⟨hfilled, hlist⟩ := Ring.toList_push h hp
        have hwait : n.wait tid = (.ok true, { n with waitQueue := q }) := by
          rw [wait, if_neg hns, hp]
        simp only [step, event, hwait, semaphore, waiters, hs, hlist]
        exact ⟨hfilled, .parked tid n.waiters⟩

theorem trace_snoc (n : Notification) (ops : List NotifyOp) (op : NotifyOp) :
    n.trace (ops ++ [op]) = n.trace ops ++ [(Run.exec step n ops).event op] := by
  induction ops generalizing n with
  | nil => rfl
  | cons o ops ih => simp only [List.cons_append, trace, ih, Run.exec_cons]

/-- **The steps of a notification are those of a binary semaphore.** -/
theorem runs_trace (ops : List NotifyOp) :
    (Run.exec step new ops).Sound ∧
      Runs (new.trace ops) (Run.exec step new ops).semaphore := by
  induction ops using List.reverseRecOn with
  | nil => exact ⟨sound_new, .new⟩
  | append_singleton ops op ih =>
    obtain ⟨hsound, hruns⟩ := ih
    obtain ⟨hsound', hstep⟩ := step_semaphore hsound op
    rw [trace_snoc, Run.exec_append, Run.exec_cons, Run.exec_nil]
    exact ⟨hsound', hruns.snoc hstep⟩

/-- What it is to be a binary semaphore, for a notification after the events `tr`. -/
structure BinarySemaphore (n : Notification) (tr : List (Event ThreadId)) : Prop where
  exclusive : n.signaled = true → n.waiters = []
  /-- Waiters are woken in the order in which they were parked; the rest still wait. -/
  fifo : tr.filterMap Event.parkedTid = tr.filterMap Event.wokenTid ++ n.waiters
  /-- Every completed wait has a signal of its own, stored before it or waking it. -/
  paired : ∃ f, Pairing tr f
  /-- A stored signal stays until a wait takes it. -/
  kept : tr.countP Event.isStored = tr.countP Event.isTaken + if n.signaled then 1 else 0
  /-- A signal either wakes the first waiter or leaves the flag set, and it is lost, without any
  effect, only on a flag that was set already with nobody waiting. -/
  signal : (∀ t, n.signal.1 = some t → n.waiters.head? = some t) ∧
    (n.signal.1 = none → n.signal.2.signaled = true) ∧
    (n.signal = (none, n) → n.signaled = true ∧ n.waiters = [])
  refused : ∀ tid e n', n.wait tid = (.error e, n') → n' = n

theorem wait_refused {tid : ThreadId} {e : IpcError} {n' : Notification}
    (h : n.wait tid = (.error e, n')) : n' = n := by
  unfold wait at h
  split at h
  · cases h
  · cases hp : n.waitQueue.push waitQueueCap tid with
    | none =>
      rw [hp] at h
      cases h
      rfl
    | some q =>
      rw [hp] at h
      cases h

/-- **A notification is a binary semaphore** after any steps of any threads. -/
theorem notification_semaphore (ops : List NotifyOp) :
    BinarySemaphore (Run.exec step new ops) (new.trace ops) := by
  obtain ⟨hsound, hruns⟩ := runs_trace ops
  refine ⟨hruns.exclusive, hruns.fifo, hruns.paired, hruns.balance, ?_, fun tid e n' => wait_refused⟩
  cases hw : (Run.exec step new ops).waiters with
  | nil =>
    rw [signal_nil hsound hw]
    refine ⟨fun t ht => (by cases ht), fun _ => rfl, fun heq => ⟨?_, rfl⟩⟩
    exact (congrArg Notification.signaled (Prod.mk.inj heq).2).symm
  | cons t l =>
    obtain ⟨n', hsignal, -, -, -⟩ := signal_cons hsound hw
    rw [hsignal]
    exact ⟨fun u hu => hu, fun hnone => (by cases hnone), fun heq => (by cases heq)⟩

/-- A thread waits and is woken; a signal is stored and taken by a second wait. -/
example : new.trace [.wait ⟨1, 1⟩, .signal, .signal, .wait ⟨2, 1⟩] =
    [.parked ⟨1, 1⟩, .woke ⟨1, 1⟩, .stored, .taken ⟨2, 1⟩] := by decide

end Notification

end QuackOS.Ipc
