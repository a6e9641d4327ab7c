import QuackOS.Ipc.Channel
import QuackOS.Lib.Errno
import QuackOS.Lib.Run
import QuackOS.Sche.Context

/-!
# The kernel under a run of threads

The IPC syscalls of `kernel/trap/native.rs` and the timer queue of `kernel/timer.rs`, over the
scheduler and the channels.  One core executes kernel code without preemption, so a step is one
syscall of the current thread, or one timer interrupt.

A thread that blocks inside a syscall leaves its continuation on its kernel stack.  `kont`
records it, and `resume` runs it when `__switch` comes back to the thread; it runs it just as
well when `schedule` found nothing to switch to.  `history` is what happened to the parked calls
of each thread, newest first; the kernel never reads it.
-/

namespace QuackOS.Ipc

open QuackOS.Sche (ThreadId Thread Sched IpcState Priority)

/-- The calls that can park. -/
inductive Call
  | send (ch : ℕ) (msg : List (BitVec 8))
  | recv (ch bufLen : ℕ)
  | recvTimeout (ch bufLen : ℕ)
  | notifyWait (n : ℕ)
  deriving DecidableEq, Repr

/-- What a syscall hands back: the value in `x0`, or the bytes copied to the user's buffer (with
their number in `x0`). -/
inductive Outcome
  | value (x0 : Int)
  | bytes (data : List (BitVec 8))
  deriving DecidableEq, Repr

/-- What happens to a parked call.
* `popped` — a partner took the thread out of its wait queue, with the message it brought;
* `expired` — the timer interrupt found its deadline passed. -/
inductive Event
  | parked (c : Call)
  | popped (msg : Option (List (BitVec 8)))
  | expired
  | completed (c : Call) (o : Outcome)
  deriving DecidableEq, Repr

/-- Where a thread is: in user code, inside a call behind `block_current`, or in the idle loop at
the end of `sys_exit_thread`. -/
inductive Kont
  | user
  | call (c : Call)
  | exited
  deriving DecidableEq, Repr

/-- `TimerDeadline`. -/
structure TimerDeadline where
  deadlineTicks : ℕ
  tid : ThreadId
  deriving DecidableEq

/-- The kernel: scheduler, channels, notifications, receive buffers and timer queue. -/
structure Kernel where
  sched : Sched
  channels : ℕ → Option ChannelInner
  notifications : ℕ → Option Notification
  buffers : IpcBufferTable
  timers : List TimerDeadline
  clock : ℕ
  freq : ℕ
  kont : ThreadId → Kont
  history : ThreadId → List Event

namespace Kernel

/-- The thread on the processor. -/
def current (s : Kernel) : ThreadId := s.sched.current

def log (s : Kernel) (tid : ThreadId) (e : Event) : Kernel :=
  { s with history := Function.update s.history tid (e :: s.history tid) }

def setKont (s : Kernel) (tid : ThreadId) (k : Kont) : Kernel :=
  { s with kont := Function.update s.kont tid k }

def setChannel (s : Kernel) (ch : ℕ) (c : ChannelInner) : Kernel :=
  { s with channels := Function.update s.channels ch (some c) }

def setNotification (s : Kernel) (n : ℕ) (o : Notification) : Kernel :=
  { s with notifications := Function.update s.notifications n (some o) }

/-- `wake` of a thread that a partner has taken out of a wait queue. -/
def wakePopped (s : Kernel) (tid : ThreadId) (msg : Option (List (BitVec 8))) : Kernel :=
  { s with sched := s.sched.wake tid }.log tid (.popped msg)

/-! ## The timer queue -/

/-- `set_ipc_timeout`. -/
def setIpcTimeout (s : Kernel) (tid : ThreadId) (timeoutMs : ℕ) : Kernel :=
  if timeoutMs = 0 then s
  else
    let deadline := (s.clock + timeoutMs * s.freq / 1000) % 2 ^ 64
    { s with
      sched := { s.sched with table := s.sched.table.withThreadMut tid fun th =>
        { th with ipcDeadline := deadline } }
      timers := s.timers.takeWhile (fun e => e.deadlineTicks ≤ deadline) ++
        { deadlineTicks := deadline, tid } ::
          s.timers.dropWhile (fun e => e.deadlineTicks ≤ deadline) }

/-- `cancel_ipc_timeout`. -/
def cancelIpcTimeout (s : Kernel) (tid : ThreadId) : Kernel :=
  { s with
    sched := { s.sched with table := s.sched.table.withThreadMut tid fun th =>
      { th with ipcDeadline := 0 } }
    timers := s.timers.eraseP fun e => e.tid == tid }

/-- The threads whose deadline has passed. -/
def expiredTids (s : Kernel) : List ThreadId :=
  (s.timers.takeWhile fun e => e.deadlineTicks ≤ s.clock).map (·.tid)

/-- One round of the second loop of `check_timeouts`. -/
def expire (s : Kernel) (tid : ThreadId) : Kernel :=
  { s with sched := s.sched.expire tid }.log tid .expired

/-- `check_timeouts`. -/
def checkTimeouts (s : Kernel) : Kernel :=
  s.expiredTids.foldl expire
    { s with timers := s.timers.dropWhile fun e => e.deadlineTicks ≤ s.clock }

/-! ## Blocking and resuming -/

/-- `cancel_receive` through `with_channel`; a channel that is gone is ignored. -/
def cancelReceive (s : Kernel) (ch : ℕ) (tid : ThreadId) : Kernel :=
  match s.channels ch with
  | none => s
  | some inner => s.setChannel ch (inner.cancelReceive tid)

/-- A parked call returns to its caller. -/
def complete (s : Kernel) (c : Call) (o : Outcome) : Kernel :=
  (s.log s.current (.completed c o)).setKont s.current .user

/-- The code of a call behind its `block_current`. -/
def finish (s : Kernel) : Call → Kernel
  | c@(.send _ _) => s.complete c (.value 0)
  | c@(.notifyWait _) => s.complete c (.value 0)
  | c@(.recv _ bufLen) => s.complete c (.bytes (s.buffers.readBuffer s.current bufLen))
  | c@(.recvTimeout ch bufLen) =>
      if (s.sched.table.lookup s.current).any (fun th => th.ipcState == .timedOut) then
        (s.cancelReceive ch s.current).complete c (.value (-etimedout))
      else
        (s.cancelIpcTimeout s.current).complete c
          (.bytes (s.buffers.readBuffer s.current bufLen))

/-- The thread `schedule` returns to goes on where it had blocked. -/
def resume (s : Kernel) : Kernel :=
  match s.kont s.current with
  | .call c => s.finish c
  | _ => s

/-- `schedule`, and what follows it in the thread it returns to. -/
def switch (s : Kernel) : Kernel := { s with sched := s.sched.schedule }.resume

/-- The state in which a parked call enters `schedule`. -/
def blocked (s : Kernel) (c : Call) (ipc : IpcState) : Kernel :=
  let s := (s.log s.current (.parked c)).setKont s.current (.call c)
  { s with sched := s.sched.markBlocked ipc }

/-- `block_current` inside a call, up to the return of whatever runs next. -/
def park (s : Kernel) (c : Call) (ipc : IpcState) : Kernel := (s.blocked c ipc).switch

/-! ## The syscalls

Each returns what the caller gets at once, or `none` if the call parked. -/

/-- The message a sender builds. -/
def sentMessage (msg : List (BitVec 8)) : Message := .newShort 1 (packShort msg)

/-- `sys_ipc_send`. -/
def sysIpcSend (s : Kernel) (ch : ℕ) (msg : List (BitVec 8)) : Option Outcome × Kernel :=
  if 256 < msg.length then (some (.value (-einval)), s)
  else
    match s.channels ch with
    | none => (some (.value (-ebadf)), s)
    | some inner =>
        match inner.matchSender s.current (sentMessage msg) with
        | (.error _, inner') => (some (.value (-ebadf)), s.setChannel ch inner')
        | (.ok (.matched receiver), inner') =>
            let s := s.setChannel ch inner'
            let s := { s with buffers := s.buffers.delivered (sentMessage msg) receiver }
            (some (.value 0), s.wakePopped receiver (some msg))
        | (.ok .parked, inner') =>
            (none, (s.setChannel ch inner').park (.send ch msg) (.blockedOnSend ch))

/-- The matched case of a receive: the message is delivered, the sender woken, and the bytes
copied out. -/
def receiveFrom (s : Kernel) (sender : WaitEntry) (bufLen : ℕ) : Option Outcome × Kernel :=
  let msg := sender.msg.getD (.newShort 0 .empty)
  let s := { s with buffers := s.buffers.delivered msg s.current }
  let s := s.wakePopped sender.threadId none
  match msg with
  | .short _ payload => (some (.bytes (unpackShort payload bufLen)), s)
  | _ => (some (.value 0), s)

/-- `sys_ipc_recv`. -/
def sysIpcRecv (s : Kernel) (ch bufLen : ℕ) : Option Outcome × Kernel :=
  match s.channels ch with
  | none => (some (.value (-ebadf)), s)
  | some inner =>
      match inner.matchReceiver s.current with
      | (.error _, inner') => (some (.value (-ebadf)), s.setChannel ch inner')
      | (.ok (.matched sender), inner') => (s.setChannel ch inner').receiveFrom sender bufLen
      | (.ok .parked, inner') =>
          (none, (s.setChannel ch inner').park (.recv ch bufLen) (.blockedOnReceive ch))

/-- `sys_ipc_recv_timeout`. -/
def sysIpcRecvTimeout (s : Kernel) (ch bufLen timeoutMs : ℕ) : Option Outcome × Kernel :=
  match s.channels ch with
  | none => (some (.value (-ebadf)), s)
  | some inner =>
      match inner.matchReceiver s.current with
      | (.error _, inner') => (some (.value (-ebadf)), s.setChannel ch inner')
      | (.ok (.matched sender), inner') => (s.setChannel ch inner').receiveFrom sender bufLen
      | (.ok .parked, inner') =>
          (none, ((s.setChannel ch inner').setIpcTimeout s.current timeoutMs).park
            (.recvTimeout ch bufLen) (.blockedOnReceive ch))

/-- `wait_on_notification`. -/
def waitOnNotification (s : Kernel) (n : ℕ) : Option Outcome × Kernel :=
  match s.notifications n with
  | none => (some (.value (-ebadf)), s)
  | some o =>
      match o.wait s.current with
      | (.error _, o') => (some (.value (-ebadf)), s.setNotification n o')
      | (.ok false, o') => (some (.value 0), s.setNotification n o')
      | (.ok true, o') =>
          (none, (s.setNotification n o').park (.notifyWait n) (.blockedOnNotify n))

/-- `signal_notification`. -/
def signalNotification (s : Kernel) (n : ℕ) : Option Outcome × Kernel :=
  match s.notifications n with
  | none => (some (.value (-ebadf)), s)
  | some o =>
      match o.signal with
      | (none, o') => (some (.value 0), s.setNotification n o')
      | (some waiter, o') => (some (.value 0), (s.setNotification n o').wakePopped waiter none)

/-- `sys_exit_thread`; its caller never returns. -/
def sysExitThread (s : Kernel) (code : BitVec 32) : Kernel :=
  let s := s.setKont s.current .exited
  { s with sched := s.sched.sysExitThread code }.resume

/-- The timer interrupt, some ticks later. -/
def timerIrq (s : Kernel) (elapsed : ℕ) : Kernel :=
  { s with clock := s.clock + elapsed }.checkTimeouts.switch

/-! ## Steps -/

end Kernel

/-- What the current thread can do, and the timer interrupt. -/
inductive Op
  | create (priority : Priority) (ttbr0 asid : BitVec 64) (child : Bool)
  | yield
  | send (ch : ℕ) (msg : List (BitVec 8))
  | recv (ch bufLen : ℕ)
  | recvTimeout (ch bufLen timeoutMs elapsed : ℕ)
  | notifyWait (n : ℕ)
  | notifySend (n : ℕ)
  | exit (code : BitVec 32)
  | timerIrq (elapsed : ℕ)

namespace Kernel

/-- A syscall of the current thread. -/
def syscall (s : Kernel) : Op → Kernel
  | .create p tt as child =>
      match s.sched.create p tt as child with
      | none => s
      | some (_, sched) => { s with sched }
  | .yield => s.switch
  | .send ch msg => (s.sysIpcSend ch msg).2
  | .recv ch bufLen => (s.sysIpcRecv ch bufLen).2
  | .recvTimeout ch bufLen ms elapsed =>
      (sysIpcRecvTimeout { s with clock := s.clock + elapsed } ch bufLen ms).2
  | .notifyWait n => (s.waitOnNotification n).2
  | .notifySend n => (s.signalNotification n).2
  | .exit code => s.sysExitThread code
  | .timerIrq elapsed => s.timerIrq elapsed

/-- One step: an interrupt comes at any time, a syscall only from a thread that is in user
code. -/
def step (s : Kernel) (op : Op) : Kernel :=
  match op with
  | .timerIrq elapsed => s.timerIrq elapsed
  | op => if s.kont s.current = .user then s.syscall op else s

/-- The kernel after boot, with some empty channels and notifications. -/
def boot (channels notifications : ℕ → Bool) (freq : ℕ) : Kernel where
  sched := Sched.boot
  channels ch := if channels ch then some .new else none
  notifications n := if notifications n then some .new else none
  buffers _ := none
  timers := []
  clock := 0
  freq := freq
  kont _ := .user
  history _ := []

end Kernel

end QuackOS.Ipc
