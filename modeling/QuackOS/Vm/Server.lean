import QuackOS.Lib.Slots
import QuackOS.Vm.VmaInvariant

/-!
# The memory server

`MmServer` of `common/src/usr/mm/server.rs`: the areas of each process, and the requests that
change them.  Page faults are in `PageFault` and `Prefault`.

* `MmServer` — the table of processes and the settings;
* `MmServer.onVmas` — `get_mut` and a call on the areas of the process, with what it leaves alone;
* `handleBrk`, `handleMmap`, `handleMunmap`, `initProcessVma` — the requests.

A function that may panic returns an `Option`.
-/

namespace QuackOS.Vm

/-! ## Areas of each kind -/

/-- `VmPerms::RW`. -/
def VmPerms.rw : VmPerms := ⟨true, true, false⟩

/-- `VmPerms::RX`. -/
def VmPerms.rx : VmPerms := ⟨true, false, true⟩

/-- `VmPerms::NONE`. -/
def VmPerms.none : VmPerms := ⟨false, false, false⟩

namespace VmaEntry

/-- The constructors of `VmaEntry`: an area that is not backed by a file. -/
def anon (start stop : ℕ) (perms : VmPerms) (regionType : VmRegionType) : VmaEntry :=
  { startVaddr := start, endVaddr := stop, perms, regionType, backingOffset := 0, cow := false }

/-- `new_code`. -/
def newCode (start stop : ℕ) : VmaEntry := anon start stop .rx .code

/-- `new_data`. -/
def newData (start stop : ℕ) : VmaEntry := anon start stop .rw .data

/-- `new_heap`. -/
def newHeap (start stop : ℕ) : VmaEntry := anon start stop .rw .heap

/-- `new_stack`. -/
def newStack (start stop : ℕ) : VmaEntry := anon start stop .rw .stack

/-- `new_mmap`. -/
def newMmap (start stop : ℕ) (perms : VmPerms) : VmaEntry := anon start stop perms .mmap

/-- `new_guard`. -/
def newGuard (addr : ℕ) : VmaEntry := anon addr (addr + 4096) .none .guard

end VmaEntry

/-! ## The table of processes -/

/-- `MAX_PROCESSES`. -/
def maxProcesses : ℕ := 128

/-- `OomPolicy`. -/
inductive OomPolicy
  | kill | reclaim | reclaimThenKill
  deriving DecidableEq, Repr

/-- `ProcessMmState`. -/
structure ProcessMmState where
  pid : ℕ
  vmaManager : VmaManager
  addrSpaceId : ℕ

/-- `ProcessTable`. -/
structure ProcessTable where
  slots : ℕ → Option ProcessMmState
  len : ℕ

namespace ProcessTable

/-- `ProcessTable::new`. -/
def new : ProcessTable := ⟨fun _ => none, 0⟩

variable (t : ProcessTable)

/-- `get`. -/
def get (pid : ℕ) : Option ProcessMmState := Slots.lookup maxProcesses t.slots (·.pid = pid)

/-- `insert`; a full table gives the state back. -/
def insert (state : ProcessMmState) : ProcessTable × Except ProcessMmState Unit :=
  match Slots.firstFree maxProcesses t.slots with
  | none => (t, .error state)
  | some i => (⟨Function.update t.slots i (some state), t.len + 1⟩, .ok ())

/-- `remove`. -/
def remove (pid : ℕ) : ProcessTable :=
  match Slots.position maxProcesses t.slots (·.pid = pid) with
  | none => t
  | some i => ⟨Function.update t.slots i none, t.len - 1⟩

end ProcessTable

/-! ## The server -/

/-- `MmServer`. -/
structure MmServer where
  processes : ProcessTable
  faultChannel : ℕ
  oomPolicy : OomPolicy
  prefaultEnabled : Bool

namespace MmServer

/-- `MmServer::new`. -/
def new (faultChannel : ℕ) : MmServer :=
  { processes := .new, faultChannel, oomPolicy := .reclaimThenKill, prefaultEnabled := false }

variable (s : MmServer)

/-- `set_prefault`. -/
def setPrefault (enabled : Bool) : MmServer := { s with prefaultEnabled := enabled }

/-- `set_oom_policy`. -/
def setOomPolicy (policy : OomPolicy) : MmServer := { s with oomPolicy := policy }

/-- `register_process`. -/
def registerProcess (pid addrSpaceId : ℕ) : MmServer × Except ℕ Unit :=
  let (t, r) := s.processes.insert ⟨pid, .new, addrSpaceId⟩
  ({ s with processes := t }, r.mapError (·.pid))

/-- `unregister_process`. -/
def unregisterProcess (pid : ℕ) : MmServer := { s with processes := s.processes.remove pid }

/-- `vma_manager`. -/
def vmas (pid : ℕ) : Option VmaManager := (s.processes.get pid).map (·.vmaManager)

/-- The areas in slot `i` are replaced. -/
def putVmas (i : ℕ) (state : ProcessMmState) (m : VmaManager) : MmServer :=
  let slots := Function.update s.processes.slots i (some { state with vmaManager := m })
  { s with processes := { s.processes with slots } }

/-- `get_mut`, and a call on the areas of the process. -/
def onVmas {α : Type} (pid : ℕ) (call : VmaManager → Option (VmaManager × Except MmError α)) :
    Option (MmServer × Except MmError α) :=
  match Slots.position maxProcesses s.processes.slots (·.pid = pid) with
  | none => some (s, .error .noVma)
  | some i =>
    match s.processes.slots i with
    | none => some (s, .error .noVma)
    | some state => do
      let (m, r) ← call state.vmaManager
      return (s.putVmas i state m, r)

end MmServer

/-! ## The requests -/

/-- The position of the heap among the entries in use, in `handle_brk`. -/
def VmaManager.heapIndex (m : VmaManager) : Option (Option ℕ) :=
  if maxVmaEntries < m.len then none
  else some (Slots.position m.len m.entries (·.regionType = .heap))

/-- The heap that `handle_brk` puts in place of the heap `heap`. -/
def VmaEntry.movedTo (heap : VmaEntry) (newBrk : ℕ) : VmaEntry :=
  .anon heap.startVaddr newBrk heap.perms .heap

/-- `handle_brk`, on the areas of the process. -/
def VmaManager.brk (m : VmaManager) (newBrk : ℕ) : Option (VmaManager × Except MmError ℕ) := do
  match ← m.heapIndex with
  | none => return (m, .error .noVma)
  | some i =>
    let heap ← m.entry i
    if newBrk = heap.endVaddr then return (m, .ok heap.endVaddr)
    else if newBrk < heap.startVaddr then return (m, .error .invalidArgument)
    else
      -- the heap is removed before it is known whether it can be put back
      match ← m.remove heap.startVaddr heap.endVaddr with
      | (m, .error e) => return (m, .error e)
      | (m, .ok ()) =>
        if newBrk > heap.startVaddr then
          match ← m.insert (heap.movedTo newBrk) with
          | (m, .error e) => return (m, .error e)
          | (m, .ok ()) => return (m, .ok newBrk)
        else return (m, .ok newBrk)

/-- The regions that `init_process_vma` is given. -/
structure Layout where
  codeStart : ℕ
  codeEnd : ℕ
  dataStart : ℕ
  dataEnd : ℕ
  stackStart : ℕ
  stackEnd : ℕ
  heapStart : ℕ

/-- The areas `init_process_vma` inserts, in this order. -/
def Layout.areas (l : Layout) : List VmaEntry :=
  [.newGuard 0] ++
    (if l.codeEnd > l.codeStart then [.newCode l.codeStart l.codeEnd] else []) ++
    (if l.dataEnd > l.dataStart then [.newData l.dataStart l.dataEnd] else []) ++
    (if l.heapStart > 0 then [.newHeap l.heapStart l.heapStart] else []) ++
    (if l.stackStart > 0x1000 then [.newGuard (l.stackStart - 0x1000)] else []) ++
    (if l.stackEnd > l.stackStart then [.newStack l.stackStart l.stackEnd] else [])

/-- Insert areas until one is refused. -/
def VmaManager.insertAll : List VmaEntry → VmaManager → Option (VmaManager × Except MmError Unit)
  | [], m => some (m, .ok ())
  | e :: es, m => do
    match ← m.insert e with
    | (m, .error err) => return (m, .error err)
    | (m, .ok ()) => insertAll es m

namespace MmServer

variable (s : MmServer)

/-- `init_process_vma`. -/
def initProcessVma (pid : ℕ) (l : Layout) : Option (MmServer × Except MmError Unit) :=
  s.onVmas pid (VmaManager.insertAll l.areas)

/-- `handle_mmap`. -/
def handleMmap (pid start stop : ℕ) (perms : VmPerms) : Option (MmServer × Except MmError Unit) :=
  s.onVmas pid (·.insert (.newMmap start stop perms))

/-- `handle_munmap`. -/
def handleMunmap (pid start stop : ℕ) : Option (MmServer × Except MmError Unit) :=
  s.onVmas pid (·.remove start stop)

/-- `handle_brk`. -/
def handleBrk (pid newBrk : ℕ) : Option (MmServer × Except MmError ℕ) :=
  s.onVmas pid (·.brk newBrk)

/-! ## What a call on the areas of one process does -/

section Calls

variable {s} {α : Type} {pid q : ℕ} {m m' : VmaManager} {r : Except MmError α}
  {f : VmaManager → Option (VmaManager × Except MmError α)}

/-- The slot of a process. -/
theorem slot_of_vmas (h : s.vmas pid = some m) :
    ∃ i st, Slots.position maxProcesses s.processes.slots (·.pid = pid) = some i ∧
      s.processes.slots i = some st ∧ st.pid = pid ∧ st.vmaManager = m := by
  obtain ⟨st, hst, rfl⟩ := Option.map_eq_some_iff.mp h
  obtain ⟨i, -, hpos, hslot, hpid⟩ := Slots.lookup_eq_some hst
  exact ⟨i, st, hpos, hslot, of_decide_eq_true hpid, rfl⟩

theorem onVmas_of_none (h : s.vmas pid = none) : s.onVmas pid f = some (s, .error .noVma) := by
  have hpos := Slots.lookup_eq_none.mp (Option.map_eq_none_iff.mp h)
  rw [onVmas, hpos]

/-- **The call reaches the areas of the process**, and no others. -/
theorem onVmas_of_some (h : s.vmas pid = some m) (hcall : f m = some (m', r)) :
    ∃ s', s.onVmas pid f = some (s', r) ∧ s'.vmas pid = some m' ∧
      (∀ q ≠ pid, s'.vmas q = s.vmas q) ∧ s'.oomPolicy = s.oomPolicy ∧
      s'.prefaultEnabled = s.prefaultEnabled := by
  obtain ⟨i, st, hpos, hslot, hpid, rfl⟩ := slot_of_vmas h
  have hrun : s.onVmas pid f = some (s.putVmas i st m', r) := by
    simp only [onVmas, hpos, hslot, hcall]
    rfl
  refine ⟨s.putVmas i st m', hrun, ?_, fun q hq => ?_, rfl, rfl⟩
  · have hself := Slots.lookup_update_self hpos (a := { st with vmaManager := m' })
      (decide_eq_true hpid)
    exact congrArg (Option.map (·.vmaManager)) hself
  · have hne : ¬ st.pid = q := fun h => hq (h.symm.trans hpid)
    have hother : Slots.lookup maxProcesses
        (Function.update s.processes.slots i (some { st with vmaManager := m' })) (·.pid = q) =
          Slots.lookup maxProcesses s.processes.slots (·.pid = q) := by
      refine Slots.lookup_update_of_not ?_ ?_
      · rw [hslot, Option.any_some]
        exact decide_eq_false hne
      · rw [Option.any_some]
        exact decide_eq_false hne
    exact congrArg (Option.map (·.vmaManager)) hother

/-- The tables of all processes keep their invariant. -/
def Ok (s : MmServer) : Prop := ∀ pid m, s.vmas pid = some m → TableOk m

/-- A call that keeps tables keeps the server. -/
theorem Ok.onVmas (hs : s.Ok) (pid : ℕ) (hcall : ∀ m, TableOk m → ∃ m' r, f m = some (m', r) ∧ TableOk m') :
    ∃ s' r, s.onVmas pid f = some (s', r) ∧ s'.Ok := by
  cases hm : s.vmas pid with
  | none => exact ⟨s, _, onVmas_of_none hm, hs⟩
  | some m =>
    obtain ⟨m', r, hrun, hok⟩ := hcall m (hs pid m hm)
    obtain ⟨s', hs', hself, hother, -, -⟩ := onVmas_of_some hm hrun
    refine ⟨s', r, hs', fun q m'' hq => ?_⟩
    by_cases hqp : q = pid
    · rw [hqp, hself, Option.some_inj] at hq
      exact hq ▸ hok
    · rw [hother q hqp] at hq
      exact hs q m'' hq

end Calls

end MmServer

end QuackOS.Vm
