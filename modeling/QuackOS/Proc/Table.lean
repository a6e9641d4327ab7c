import QuackOS.Lib.Generations
import QuackOS.Sche.Thread

/-!
# Processes and the process table

`usr/proc/types.rs` and `usr/proc/proc_table.rs` of the process server: process ids with a
generation, the states of a process, signals, and the table of 128 slots.

`get` is the only way the server reaches a process, so the lemmas here say what each operation of
the table does to a slot and to its generation.
-/

namespace QuackOS.Proc

/-- `ProcessId`: slot index and generation, both `u16`. -/
@[ext] structure ProcessId where
  index : ℕ
  generation : ℕ
  deriving DecidableEq, Repr

namespace ProcessId

/-- The null process id. -/
def null : ProcessId := ⟨0, 0⟩

/-- `is_null`. -/
def isNull (p : ProcessId) : Bool := p.index == 0 && p.generation == 0

end ProcessId

/-- `ProcessState`. -/
inductive ProcessState
  | created
  | running
  | blocked
  | stopped
  | dying
  | zombie
  deriving DecidableEq, Repr

namespace ProcessState

/-- `is_alive`: not dying or zombie. -/
def isAlive : ProcessState → Bool
  | .created | .running | .blocked | .stopped => true
  | .dying | .zombie => false

/-- `can_receive_signal`. -/
def canReceiveSignal : ProcessState → Bool
  | .running | .blocked | .stopped => true
  | .created | .dying | .zombie => false

theorem isAlive_of_canReceiveSignal {st : ProcessState} (h : st.canReceiveSignal = true) :
    st.isAlive = true := by
  cases st <;> simp_all [canReceiveSignal, isAlive]

end ProcessState

/-- `SignalAction`. -/
inductive SignalAction
  | terminate
  | stop
  | cont
  | ignore
  deriving DecidableEq, Repr

/-- `Signal`. -/
inductive Signal
  | SIGINT | SIGQUIT | SIGILL | SIGTRAP | SIGABRT | SIGBUS | SIGFPE | SIGKILL | SIGUSR1
  | SIGSEGV | SIGUSR2 | SIGPIPE | SIGALRM | SIGTERM | SIGCHLD | SIGCONT | SIGSTOP
  deriving DecidableEq, Repr

namespace Signal

/-- `signal as i32`. -/
def number : Signal → ℤ
  | SIGINT => 2
  | SIGQUIT => 3
  | SIGILL => 4
  | SIGTRAP => 5
  | SIGABRT => 6
  | SIGBUS => 7
  | SIGFPE => 8
  | SIGKILL => 9
  | SIGUSR1 => 10
  | SIGSEGV => 11
  | SIGUSR2 => 12
  | SIGPIPE => 13
  | SIGALRM => 14
  | SIGTERM => 15
  | SIGCHLD => 17
  | SIGCONT => 18
  | SIGSTOP => 19

/-- `default_action`. -/
def defaultAction : Signal → SignalAction
  | SIGSTOP => .stop
  | SIGCONT => .cont
  | SIGCHLD => .ignore
  | _ => .terminate

end Signal

/-- `ProcError`, as far as the server returns it here. -/
inductive ProcError
  | InvalidProcess
  | ProcessTableFull
  | PermissionDenied
  | InvalidState
  deriving DecidableEq, Repr

/-- `ProcessPriority`, a `u8`. -/
abbrev ProcessPriority := Fin 256

/-- `ProcessPriority::DEFAULT`. -/
def ProcessPriority.default : ProcessPriority := 128

/-- `ProcessPriority::SYSTEM`. -/
def ProcessPriority.system : ProcessPriority := 200

/-- `MAX_PROCESSES`. -/
def maxProcesses : ℕ := 128

/-- `MAX_THREADS_PER_PROCESS`. -/
def maxThreadsPerProcess : ℕ := 8

/-- `ProcessInfo`.  The name is its valid bytes; an exit code is an `i32`. -/
structure ProcessInfo where
  pid : ProcessId
  name : List UInt8
  state : ProcessState
  priority : ProcessPriority
  addrSpaceId : ℕ
  parent : ProcessId
  threads : List (Option Sche.ThreadId)
  threadCount : ℕ
  exitCode : Option ℤ
  deriving DecidableEq

namespace ProcessInfo

/-- `ProcessInfo::new`: a name is cut to 32 bytes. -/
def new (pid : ProcessId) (name : List UInt8) (priority : ProcessPriority) (addrSpaceId : ℕ)
    (parent : ProcessId) : ProcessInfo :=
  { pid
    name := name.take 32
    state := .created
    priority, addrSpaceId, parent
    threads := List.replicate maxThreadsPerProcess none
    threadCount := 0
    exitCode := none }

/-- `thread_ids`. -/
def threadIds (info : ProcessInfo) : List Sche.ThreadId :=
  (info.threads.take info.threadCount).filterMap id

/-- A process that `exit` leaves for its parent. -/
def toZombie (info : ProcessInfo) (code : ℤ) : ProcessInfo :=
  { info with
    state := .zombie
    exitCode := some code
    threads := List.replicate maxThreadsPerProcess none
    threadCount := 0 }

end ProcessInfo

/-- `ProcessTable`. -/
structure ProcessTable where
  slots : ℕ → Option ProcessInfo
  len : ℕ
  generations : ℕ → ℕ

namespace ProcessTable

/-- `ProcessTable::new`. -/
def new : ProcessTable := { slots := fun _ => none, len := 0, generations := fun _ => 0 }

/-- The generation of a slot's next allocation, a `u16`. -/
def nextGeneration (t : ProcessTable) (i : ℕ) : ℕ :=
  if t.generations i = 0 then 1 else (t.generations i + 1) % 2 ^ 16

/-- `alloc_slot`. -/
def allocSlot (t : ProcessTable) : Option (ProcessId × ProcessTable) :=
  (Slots.firstFree maxProcesses t.slots).map fun i =>
    (⟨i, t.nextGeneration i⟩,
      { t with generations := Function.update t.generations i (t.nextGeneration i) })

/-- `free_slot`. -/
def freeSlot (t : ProcessTable) (i : ℕ) : ProcessTable :=
  if i < maxProcesses then
    { t with slots := Function.update t.slots i none, len := t.len - 1 }
  else t

/-- `insert`: the record goes into the table as it is. -/
def insert (t : ProcessTable) (info : ProcessInfo) : Except ProcError (ProcessId × ProcessTable) :=
  match t.allocSlot with
  | none => .error .ProcessTableFull
  | some (pid, t) =>
      .ok (pid, { t with slots := Function.update t.slots pid.index (some info), len := t.len + 1 })

/-- `get`, and `get_mut` as a lookup. -/
def get (t : ProcessTable) (pid : ProcessId) : Option ProcessInfo :=
  if pid.isNull then none
  else if maxProcesses ≤ pid.index then none
  else if t.generations pid.index ≠ pid.generation then none
  else t.slots pid.index

/-- A change through `get_mut`. -/
def modify (t : ProcessTable) (pid : ProcessId) (f : ProcessInfo → ProcessInfo) : ProcessTable :=
  match t.get pid with
  | none => t
  | some info => { t with slots := Function.update t.slots pid.index (some (f info)) }

/-- `remove`, without the record it returns. -/
def remove (t : ProcessTable) (pid : ProcessId) : ProcessTable :=
  if pid.isNull then t
  else if maxProcesses ≤ pid.index then t
  else if t.generations pid.index ≠ pid.generation then t
  else
    match t.slots pid.index with
    | none => t
    | some _ => freeSlot { t with slots := Function.update t.slots pid.index none } pid.index

/-- `set_state`. -/
def setState (t : ProcessTable) (pid : ProcessId) (st : ProcessState) :
    Except ProcError ProcessTable :=
  match t.get pid with
  | none => .error .InvalidProcess
  | some _ => .ok (t.modify pid fun info => { info with state := st })

/-- `iter`. -/
def iter (t : ProcessTable) : List ProcessInfo := (List.range maxProcesses).filterMap t.slots

/-- `children_of`. -/
def childrenOf (t : ProcessTable) (parent : ProcessId) : List ProcessId :=
  (t.iter.filter fun info => info.parent = parent).map ProcessInfo.pid

/-! ## What the operations do -/

variable {t t' : ProcessTable} {pid : ProcessId} {info : ProcessInfo}

/-- Every allocation changes the generation. -/
theorem nextGeneration_ne (t : ProcessTable) (i : ℕ) : t.nextGeneration i ≠ t.generations i := by
  unfold nextGeneration
  split <;> omega

theorem get_eq_some : t.get pid = some info ↔ pid.isNull = false ∧ pid.index < maxProcesses ∧
    pid.generation = t.generations pid.index ∧ t.slots pid.index = some info := by
  unfold get
  cases hn : pid.isNull with
  | true => simp
  | false =>
    by_cases hi : maxProcesses ≤ pid.index
    · simp [hi]
    · by_cases hg : t.generations pid.index = pid.generation
      · simp [hi, hg, Nat.lt_of_not_le hi]
      · simp [hi, hg, Ne.symm hg]

theorem setState_of_get (h : t.get pid = some info) (st : ProcessState) :
    t.setState pid st =
      .ok { t with slots := Function.update t.slots pid.index (some { info with state := st }) } := by
  simp only [setState, modify, h]

theorem modify_of_get (h : t.get pid = some info) (f : ProcessInfo → ProcessInfo) :
    t.modify pid f = { t with slots := Function.update t.slots pid.index (some (f info)) } := by
  simp only [modify, h]

theorem remove_of_get (h : t.get pid = some info) :
    t.remove pid =
      { t with slots := Function.update t.slots pid.index none, len := t.len - 1 } := by
  obtain ⟨hn, hi, hg, hs⟩ := get_eq_some.mp h
  simp only [remove, hn, Bool.false_eq_true, if_false, Nat.not_le.mpr hi, hg, ne_eq,
    not_true_eq_false, hs, freeSlot, hi, if_true, Function.update_idem]

/-- A changed record is found again under its id. -/
theorem get_update (h : t.get pid = some info) (info' : ProcessInfo) :
    ({ t with slots := Function.update t.slots pid.index (some info') } : ProcessTable).get pid =
      some info' := by
  obtain ⟨hn, hi, hg, -⟩ := get_eq_some.mp h
  exact get_eq_some.mpr ⟨hn, hi, hg, Function.update_self ..⟩

theorem insert_of_free {i : ℕ} (h : Slots.firstFree maxProcesses t.slots = some i)
    (info : ProcessInfo) :
    t.insert info = .ok (⟨i, t.nextGeneration i⟩,
      { slots := Function.update t.slots i (some info)
        len := t.len + 1
        generations := Function.update t.generations i (t.nextGeneration i) }) := by
  simp only [insert, allocSlot, h, Option.map_some]

theorem insert_of_full (h : Slots.firstFree maxProcesses t.slots = none) (info : ProcessInfo) :
    t.insert info = .error .ProcessTableFull := by
  simp only [insert, allocSlot, h, Option.map_none]

theorem mem_iter : info ∈ t.iter ↔ ∃ i < maxProcesses, t.slots i = some info := by
  simp only [iter, List.mem_filterMap, List.mem_range]

end ProcessTable

end QuackOS.Proc
