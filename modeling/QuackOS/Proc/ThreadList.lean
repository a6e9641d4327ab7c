import QuackOS.Lib.Run
import QuackOS.Proc.Server

/-!
# The threads of a process

`add_thread`, `remove_thread` and `thread_ids` of `usr/proc/proc_table.rs`, and what they mean for
`exit`.  The array of a process is meant to have its valid entries first, which is what
`thread_ids` counts on; `remove_thread` leaves the slot it clears where it is.

* `lookup_destroyTasks` — which threads `exit` takes out of the kernel's table;
* `ThreadBook.Packed` — the valid entries come first;
* `threads_right_iff` — the list, the count and `exit` are right in every state of a run exactly
  when every removal takes the thread added last.
-/

namespace QuackOS.Proc

namespace ProcessInfo

/-- `can_add_thread`. -/
def canAddThread (info : ProcessInfo) : Bool := decide (info.threadCount < maxThreadsPerProcess)

/-- `add_thread`: the first free slot is taken. -/
def addThread (info : ProcessInfo) (tid : Sche.ThreadId) : Except Unit ProcessInfo :=
  if !info.canAddThread then .error ()
  else
    match info.threads.findIdx? Option.isNone with
    | none => .error ()
    | some i =>
        .ok { info with
          threads := info.threads.set i (some tid)
          threadCount := info.threadCount + 1 }

/-- `remove_thread`: whether the thread was found, and the record without it. -/
def removeThread (info : ProcessInfo) (tid : Sche.ThreadId) : Bool × ProcessInfo :=
  match info.threads.findIdx? fun slot => slot == some tid with
  | none => (false, info)
  | some i =>
      (true, { info with
        threads := info.threads.set i none
        threadCount := info.threadCount - 1 })

end ProcessInfo

/-! ## What `exit` destroys -/

/-- The tasks that are destroyed are gone, all others are as they were. -/
theorem lookup_destroyTasks (t : Sche.ThreadTable) (tids : List Sche.ThreadId)
    (j : Sche.ThreadId) :
    (ProcServer.destroyTasks t tids).lookup j = if j ∈ tids then none else t.lookup j := by
  unfold ProcServer.destroyTasks
  induction tids generalizing t with
  | nil => rfl
  | cons tid tids ih =>
    have hone : (if (t.lookup tid).isSome then t.destroyThread tid else t).lookup j =
        if j = tid then none else t.lookup j := by
      split
      · exact Sche.ThreadTable.lookup_destroyThread t tid j
      · rename_i hnone
        split
        · rename_i heq
          rw [heq]
          exact Option.not_isSome_iff_eq_none.mp hnone
        · rfl
    rw [List.foldl_cons, ih, hone]
    by_cases hj : j = tid
    · simp [hj]
    · simp [hj]

/-- A process that can exit takes its listed threads with it. -/
theorem lookup_exit {s : ProcServer} {pid : ProcessId} {info : ProcessInfo}
    (hget : s.processes.get pid = some info) (halive : info.state.isAlive = true) (code : ℤ)
    (j : Sche.ThreadId) :
    (s.exit pid code).2.tasks.lookup j =
      if j ∈ info.threadIds then none else s.tasks.lookup j := by
  rw [ProcServer.exit_of_alive hget halive code]
  exact lookup_destroyTasks s.tasks info.threadIds j

/-! ## Runs of additions and removals -/

/-- A call on the thread list. -/
inductive ThreadCall
  | add (tid : Sche.ThreadId)
  | remove (tid : Sche.ThreadId)
  deriving DecidableEq

/-- A process, and the threads added to it and not removed since, in the order of their
adding. -/
structure ThreadBook where
  info : ProcessInfo
  ids : List Sche.ThreadId

namespace ThreadBook

/-- One call; an addition that fails adds nothing. -/
def step (b : ThreadBook) : ThreadCall → ThreadBook
  | .add tid =>
      match b.info.addThread tid with
      | .error () => b
      | .ok info => ⟨info, b.ids ++ [tid]⟩
  | .remove tid => ⟨(b.info.removeThread tid).2, b.ids.erase tid⟩

/-- A process as `new` makes it. -/
def start (pid : ProcessId) (name : List UInt8) (priority : ProcessPriority) (addrSpaceId : ℕ)
    (parent : ProcessId) : ThreadBook :=
  ⟨ProcessInfo.new pid name priority addrSpaceId parent, []⟩

/-- A thread is added under an id that no thread of the process has. -/
def Fresh (b : ThreadBook) : ThreadCall → Prop
  | .add tid => tid ∉ b.ids
  | .remove _ => True

/-- A removal of one of the threads takes the one added last. -/
def RemovesLast (b : ThreadBook) : ThreadCall → Prop
  | .add _ => True
  | .remove tid => tid ∈ b.ids → b.ids.getLast? = some tid

instance (b : ThreadBook) : ∀ c, Decidable (b.Fresh c)
  | .add tid => inferInstanceAs (Decidable (tid ∉ b.ids))
  | .remove _ => isTrue trivial

instance (b : ThreadBook) : ∀ c, Decidable (b.RemovesLast c)
  | .add _ => isTrue trivial
  | .remove tid => inferInstanceAs (Decidable (tid ∈ b.ids → b.ids.getLast? = some tid))

/-- What the list is for: it names the threads of the process, counts them, is full when there are
as many as there can be, and `exit` destroys them all, in whatever server the process is. -/
structure Right (b : ThreadBook) : Prop where
  listed : b.info.threadIds.Perm b.ids
  counted : b.info.threadCount = b.ids.length
  full : ∀ tid, b.info.addThread tid = .error () ↔ b.ids.length = maxThreadsPerProcess
  ended : ∀ (s : ProcServer) (pid : ProcessId) (info : ProcessInfo) (code : ℤ),
    s.processes.get pid = some info → info.state.isAlive = true →
    info.threads = b.info.threads → info.threadCount = b.info.threadCount →
    ∀ tid ∈ b.ids, (s.exit pid code).2.tasks.lookup tid = none

/-- The valid entries come first, in the order of their adding. -/
structure Packed (b : ThreadBook) : Prop where
  threads : b.info.threads = Slots.packed maxThreadsPerProcess b.ids
  counted : b.info.threadCount = b.ids.length
  le : b.ids.length ≤ maxThreadsPerProcess
  nodup : b.ids.Nodup

variable {b : ThreadBook} {tid : Sche.ThreadId}

theorem Packed.threadIds (h : b.Packed) : b.info.threadIds = b.ids := by
  rw [ProcessInfo.threadIds, h.threads, h.counted, Slots.take_packed, List.filterMap_map]
  exact List.filterMap_some

theorem Packed.addThread_full (h : b.Packed) (hfull : b.ids.length = maxThreadsPerProcess) :
    b.info.addThread tid = .error () := by
  have hcan : b.info.canAddThread = false := by
    rw [ProcessInfo.canAddThread, h.counted, hfull]
    exact decide_eq_false (Nat.lt_irrefl _)
  rw [ProcessInfo.addThread, hcan]
  rfl

theorem Packed.addThread (h : b.Packed) (hroom : b.ids.length < maxThreadsPerProcess) :
    b.info.addThread tid = .ok { b.info with
      threads := Slots.packed maxThreadsPerProcess (b.ids ++ [tid])
      threadCount := b.ids.length + 1 } := by
  have hcan : b.info.canAddThread = true := by
    rw [ProcessInfo.canAddThread, h.counted]
    exact decide_eq_true hroom
  rw [ProcessInfo.addThread, hcan, h.threads, Slots.findIdx?_packed hroom, h.counted]
  simp only [Bool.not_true, Bool.false_eq_true, if_false, Slots.set_packed hroom]

theorem Packed.right (h : b.Packed) : b.Right where
  listed := by rw [h.threadIds]
  counted := h.counted
  full := by
    intro tid
    refine ⟨fun herr => ?_, h.addThread_full⟩
    by_contra hne
    rw [h.addThread (Nat.lt_of_le_of_ne h.le hne)] at herr
    cases herr
  ended := by
    intro s pid info code hget halive hthreads hcount tid htid
    have hids : info.threadIds = b.ids := by
      rw [← h.threadIds, ProcessInfo.threadIds, ProcessInfo.threadIds, hthreads, hcount]
    rw [lookup_exit hget halive, hids, if_pos htid]

/-- Removing a thread of the process clears its slot, wherever it is. -/
theorem Packed.removeThread (h : b.Packed) (htid : tid ∈ b.ids) :
    b.info.removeThread tid = (true, { b.info with
      threads := (Slots.packed maxThreadsPerProcess b.ids).set (b.ids.idxOf tid) none
      threadCount := b.ids.length - 1 }) := by
  rw [ProcessInfo.removeThread, h.threads, Slots.findIdx?_packed_some htid, h.counted]

theorem Packed.removeThread_other (h : b.Packed) (htid : tid ∉ b.ids) :
    b.info.removeThread tid = (false, b.info) := by
  rw [ProcessInfo.removeThread, h.threads, Slots.findIdx?_packed_none htid]

theorem packed_start (pid : ProcessId) (name : List UInt8) (priority : ProcessPriority)
    (addrSpaceId : ℕ) (parent : ProcessId) : (start pid name priority addrSpaceId parent).Packed :=
  ⟨rfl, rfl, Nat.zero_le _, List.nodup_nil⟩

/-- **The step lemma.** -/
theorem Packed.step (h : b.Packed) {c : ThreadCall} (hfresh : b.Fresh c) (hlast : b.RemovesLast c) :
    (b.step c).Packed := by
  cases c with
  | add tid =>
    rcases Nat.lt_or_eq_of_le h.le with hroom | hfull
    · rw [ThreadBook.step, h.addThread hroom]
      have hlen : (b.ids ++ [tid]).length = b.ids.length + 1 := List.length_append
      refine ⟨rfl, hlen.symm, ?_, ?_⟩
      · dsimp only
        omega
      · exact List.nodup_append_comm.mp (List.nodup_cons.mpr ⟨hfresh, h.nodup⟩)
    · rw [ThreadBook.step, h.addThread_full hfull]
      exact h
  | remove tid =>
    by_cases htid : tid ∈ b.ids
    · obtain ⟨ids, hids⟩ := List.getLast?_eq_some_iff.mp (hlast htid)
      have hnew : tid ∉ ids := by
        have hnodup := h.nodup
        rw [hids] at hnodup
        exact (List.nodup_cons.mp (List.nodup_append_comm.mp hnodup)).1
      have hidx : b.ids.idxOf tid = ids.length := by
        rw [hids, List.idxOf_append_of_notMem hnew, List.idxOf_cons_self, Nat.add_zero]
      have herase : b.ids.erase tid = ids := by
        rw [hids, List.erase_append_right _ hnew, List.erase_cons_head, List.append_nil]
      have hlen : b.ids.length = ids.length + 1 := by rw [hids, List.length_append]; rfl
      have hroom : ids.length < maxThreadsPerProcess := by
        have hle := h.le
        omega
      rw [ThreadBook.step, h.removeThread htid, herase, hidx, hids,
        Slots.clear_last_packed hroom]
      refine ⟨rfl, ?_, Nat.le_of_lt hroom, ?_⟩
      · rw [List.length_append, List.length_singleton, Nat.add_sub_cancel]
      · have hnodup := h.nodup
        rw [hids] at hnodup
        exact hnodup.of_append_left
    · rw [ThreadBook.step, h.removeThread_other htid, List.erase_of_not_mem htid]
      exact h

/-- A thread removed from in front of others hides one of them. -/
theorem Packed.not_right (h : b.Packed) {c : ThreadCall} (hlast : ¬ b.RemovesLast c) :
    ¬ (b.step c).Right := by
  cases c with
  | add tid => exact absurd trivial hlast
  | remove tid =>
    obtain ⟨htid, hne⟩ := Classical.not_imp.mp hlast
    have hidx : b.ids.idxOf tid + 1 < b.ids.length := by
      have hlt := List.idxOf_lt_length_iff.mpr htid
      by_contra hge
      refine hne ?_
      have hpos : b.ids.length - 1 = b.ids.idxOf tid := by omega
      rw [List.getLast?_eq_getElem?, hpos, List.getElem?_eq_getElem hlt, List.getElem_idxOf]
    intro hright
    have hlen := hright.listed.length_eq
    rw [ThreadBook.step, h.removeThread htid] at hlen
    rw [ProcessInfo.threadIds, List.length_erase_of_mem htid] at hlen
    have hshort : _ < b.ids.length - 1 :=
      Slots.length_filterMap_hole (n := maxThreadsPerProcess) hidx
    exact absurd hlen (Nat.ne_of_lt hshort)

end ThreadBook

/-- **When the thread list is right.**  Whatever threads are added to a process and removed from
it, the list names them, counts them and is full at eight of them, and `exit` destroys them all, in
every state of the run, exactly when each thread removed is the one added last.  A thread removed
from in front of others leaves a hole, and `thread_ids`, which looks at as many slots as there are
threads, misses the last of them. -/
theorem threads_right_iff {pid : ProcessId} {name : List UInt8} {priority : ProcessPriority}
    {addrSpaceId : ℕ} {parent : ProcessId} {calls : List ThreadCall}
    (hfresh : Run.Along ThreadBook.step ThreadBook.Fresh
      (ThreadBook.start pid name priority addrSpaceId parent) calls) :
    (∀ pre, pre <+: calls → (Run.exec ThreadBook.step
      (ThreadBook.start pid name priority addrSpaceId parent) pre).Right) ↔
    Run.Along ThreadBook.step ThreadBook.RemovesLast
      (ThreadBook.start pid name priority addrSpaceId parent) calls :=
  Run.forall_prefix_iff_along_of (fun _ h => h.right) (fun _ _ h => h.step)
    (fun _ _ h _ => h.not_right) (ThreadBook.packed_start pid name priority addrSpaceId parent)
    hfresh

section Hole

/-- Two threads. -/
def older : Sche.ThreadId := ⟨1, 1⟩
def newer : Sche.ThreadId := ⟨2, 1⟩

/-- A process without threads. -/
def lonely : ThreadBook := .start ⟨0, 1⟩ [] ProcessPriority.default 0 .null

/-- Removing the thread added last is right. -/
theorem threads_right_newer :
    (Run.exec ThreadBook.step lonely [.add older, .add newer, .remove newer]).Right := by
  have hfresh : Run.Along ThreadBook.step ThreadBook.Fresh lonely
      [.add older, .add newer, .remove newer] := by decide
  exact (threads_right_iff hfresh).mpr (by decide) _ (List.prefix_refl _)

/-- The process after the other thread is removed, and a server it is in with the kernel's
threads. -/
def holed : ThreadBook := Run.exec ThreadBook.step lonely [.add older, .add newer, .remove older]

def holedServer : ProcServer :=
  { processes :=
      { slots := fun i => if i = 0 then some holed.info else none
        len := 1
        generations := fun i => if i = 0 then 1 else 0 }
    tasks :=
      { slots := fun i => if i = 2 then some (.new newer 128 0 0) else none
        generations := fun i => if i = 2 then 1 else 0
        count := 1 }
    defaultPriority := ProcessPriority.default
    initialised := true }

/-- **The thread behind a hole is not listed**, and it outlives its process. -/
theorem hole_hides_newer :
    Run.Along ThreadBook.step ThreadBook.Fresh lonely [.add older, .add newer, .remove older] ∧
    ¬ holed.Right ∧ holed.ids = [newer] ∧ holed.info.threadCount = 1 ∧ holed.info.threadIds = [] ∧
    (holedServer.exit ⟨0, 1⟩ 0).1.isOk = true ∧
    ((holedServer.exit ⟨0, 1⟩ 0).2.tasks.lookup newer).isSome = true := by
  refine ⟨by decide, fun h => ?_, by decide, by decide, by decide, by decide, by decide⟩
  have hperm := h.listed
  rw [show holed.info.threadIds = [] by decide, show holed.ids = [newer] by decide] at hperm
  exact absurd hperm.length_eq (by decide)

end Hole

end QuackOS.Proc
