import QuackOS.Sche.Queue

/-!
# The scheduler

The model of `kernel/sche/context.rs` (`schedule`, `block_current`, `wake`, `bootstrap_idle`)
and of the two thread-lifecycle syscalls built on it, `sys_exit_thread` and `sys_wait4`.  The
three globals `THREAD_TABLE`, `READY_QUEUE` and `CURRENT` are the fields of `Sched`; what a
thread does once `__switch` has resumed it is not the scheduler's business and is left to the
callers.
-/

namespace QuackOS.Sche

/-- The scheduler's global state. -/
structure Sched where
  table : ThreadTable
  ready : ReadyQueue
  current : ThreadId

/-- The transition step 3 of `schedule` makes: only a running thread becomes ready. -/
def Thread.yielded (th : Thread) : Thread :=
  match th.state with
  | .running => { th with state := .ready }
  | _ => th

namespace Sched

/-- `set_atomic_state` through `with_thread`. -/
def setState (s : Sched) (tid : ThreadId) (st : ThreadState) : Sched :=
  { s with table := s.table.withThreadMut tid fun th => { th with state := st } }

/-- Step 3 of `schedule`: a running current thread becomes ready, and is queued again. -/
def requeueCurrent (s : Sched) : Sched :=
  if s.current.isNull then s
  else
    let table := s.table.withThreadMut s.current Thread.yielded
    match table.lookup s.current with
    | none => { s with table }
    | some th =>
        if th.state = .ready then
          { s with table, ready := s.ready.enqueueReady s.current th.effectivePriority }
        else { s with table }

/-- `schedule`.  When nothing is runnable it returns at once, whatever the state of the current
thread is. -/
def schedule (s : Sched) : Sched :=
  match s.ready.dequeueReady with
  | (none, _) => s
  | (some next, ready) =>
      let s := requeueCurrent { s with ready }
      { s.setState next .running with current := next }

/-- The first half of `block_current`. -/
def markBlocked (s : Sched) (ipc : IpcState) : Sched :=
  if s.current.isNull then s
  else { s with table := s.table.withThreadMut s.current fun th =>
    { th with state := .blocked, ipcState := ipc } }

/-- `block_current`. -/
def blockCurrent (s : Sched) (ipc : IpcState) : Sched := (s.markBlocked ipc).schedule

/-- `wake`: unconditional, whatever the thread is doing. -/
def wake (s : Sched) (tid : ThreadId) : Sched :=
  if tid.isNull then s
  else
    match s.table.lookup tid with
    | none => s
    | some th =>
        { s with
          table := s.table.withThreadMut tid fun th =>
            { th with state := .ready, ipcState := .ready }
          ready := s.ready.enqueueReady tid th.effectivePriority }

/-- One expired entry of `check_timeouts`: wake the thread, then mark it timed out. -/
def expire (s : Sched) (tid : ThreadId) : Sched :=
  let s := { s with table := s.table.withThreadMut tid fun th => { th with ipcDeadline := 0 } }
  let s := s.wake tid
  { s with table := s.table.withThreadMut tid fun th => { th with ipcState := .timedOut } }

/-- `create_thread` followed by `enqueue_ready` at the thread's priority; with `child`, the
`sys_clone` variant that records the current thread as parent in between. -/
def create (s : Sched) (priority : Priority) (ttbr0 asid : BitVec 64) (child : Bool) :
    Option (ThreadId × Sched) :=
  match s.table.createThread priority ttbr0 asid with
  | none => none
  | some (tid, table) =>
      let table :=
        if child then table.withThreadMut tid fun th => { th with parentTid := some s.current }
        else table
      some (tid, { s with table, ready := s.ready.enqueueReady tid priority })

/-- The part of `sys_exit_thread` before `schedule`. -/
def markDying (s : Sched) (code : BitVec 32) : Sched :=
  { s with table := s.table.withThreadMut s.current fun th =>
    { th with exitCode := code, state := .dying } }

/-- The parent `sys_exit_thread` wakes: one that is blocked in `wait4`. -/
def waitingParent (s : Sched) : Option ThreadId :=
  ((s.table.lookup s.current).bind (·.parentTid)).filter fun pid =>
    (s.table.lookup pid).any fun th => th.ipcState == .blockedOnWait4

/-- `sys_exit_thread`. -/
def sysExitThread (s : Sched) (code : BitVec 32) : Sched :=
  let s := s.markDying code
  let s :=
    match s.waitingParent with
    | none => s
    | some pid => s.wake pid
  s.schedule

/-- What one pass of the loop in `sys_wait4` ends with. -/
inductive Wait4
  | reaped (tid : ThreadId) (status : BitVec 32)
  | blocked
  | noChild

/-- The children of the current thread, in slot order. -/
def children (s : Sched) : List Thread :=
  s.table.allThreads.filter fun th => th.parentTid == some s.current

/-- One pass of the loop in `sys_wait4`; a blocked caller makes another pass when it runs
again. -/
def sysWait4 (s : Sched) : Wait4 × Sched :=
  match s.children.find? fun th => th.state == .dying with
  | some c => (.reaped c.id ((c.exitCode &&& 0xFF) <<< 8), { s with table := s.table.destroyThread c.id })
  | none =>
      if s.children.isEmpty then (.noChild, s)
      else (.blocked, s.blockCurrent .blockedOnWait4)

/-- The boot thread. -/
def bootTid : ThreadId := ⟨0, 1⟩

/-- The state after `sche::init`: the boot thread is created at the default priority and
bootstrapped as the running thread. -/
def boot : Sched :=
  match ThreadTable.new.createThread 128 0 0 with
  | none => { table := ThreadTable.new, ready := ReadyQueue.new, current := .null }
  | some (tid, table) =>
      Sched.setState { table, ready := ReadyQueue.new, current := tid } tid .running

end Sched

end QuackOS.Sche
