import Mathlib.Data.BitVec
import QuackOS.Lib.Slots

/-!
# Threads and the thread table

The model of `kernel/sche/thread.rs`: generational thread ids, the thread control block and
the table of 256 slots.  A thread id is the pair its 32 bits pack, `generation << 16 | index`.

`lookup` is the only way the kernel reaches a thread, so its three lemmas
(`lookup_withThreadMut`, `lookup_createThread`, `lookup_destroyThread`) are what the scheduler
proofs use.
-/

namespace QuackOS.Sche

/-- `ThreadId`: slot index and generation, both `u16`. -/
@[ext] structure ThreadId where
  index : Nat
  generation : Nat
  deriving DecidableEq, Repr

namespace ThreadId

/-- The null thread id, never allocated. -/
def null : ThreadId := ⟨0, 0⟩

/-- `is_null`. -/
def isNull (t : ThreadId) : Bool := t.index == 0 && t.generation == 0

end ThreadId

/-- Thread lifecycle state. -/
inductive ThreadState
  | free
  | ready
  | running
  | blocked
  | dying
  deriving DecidableEq, Repr

/-- `ipc::synchronization::IpcState`, with channel and notification ids. -/
inductive IpcState
  | ready
  | blockedOnSend (ch : Nat)
  | blockedOnReceive (ch : Nat)
  | blockedOnCall (ch : Nat)
  | blockedOnNotify (n : Nat)
  | timedOut
  | blockedOnWait4
  deriving DecidableEq, Repr

/-- Scheduling priority, a `u8`. -/
abbrev Priority := Fin 256

instance Priority.neZero : NeZero 256 := ⟨by decide⟩

/-- The thread control block.  The kernel-stack addresses, the donated priority and the unused
per-thread IPC buffer are left out. -/
structure Thread where
  id : ThreadId
  priority : Priority
  ttbr0 : BitVec 64
  asid : BitVec 64
  state : ThreadState
  ipcState : IpcState
  linuxHandlerPc : Option (BitVec 64)
  linuxSaveArea : Option (BitVec 64)
  ipcDeadline : Nat
  parentTid : Option ThreadId
  exitCode : BitVec 32
  deriving DecidableEq

/-- `Thread::new`. -/
def Thread.new (id : ThreadId) (priority : Priority) (ttbr0 asid : BitVec 64) : Thread :=
  { id, priority, ttbr0, asid
    state := .ready
    ipcState := .ready
    linuxHandlerPc := none
    linuxSaveArea := none
    ipcDeadline := 0
    parentTid := none
    exitCode := 0 }

/-- `effective_priority`. -/
def Thread.effectivePriority (t : Thread) : Priority := t.priority

/-- Maximum number of kernel threads. -/
def maxThreads : Nat := 256

/-- The global thread table: the slots, how often each was given out (a `u16`), and the number of
threads. -/
structure ThreadTable where
  slots : Nat → Option Thread
  generations : Nat → Nat
  count : Nat

namespace ThreadTable

/-- `ThreadTableInner::new`. -/
def new : ThreadTable := { slots := fun _ => none, generations := fun _ => 0, count := 0 }

/-- The generation a slot gets on its next allocation: 1 the first time, then one more,
wrapping as a `u16`. -/
def nextGeneration (t : ThreadTable) (i : Nat) : Nat :=
  if t.generations i = 0 then 1 else (t.generations i + 1) % 2 ^ 16

/-- `alloc_slot`. -/
def allocSlot (t : ThreadTable) : Option (ThreadId × ThreadTable) :=
  match Slots.firstFree maxThreads t.slots with
  | none => none
  | some i =>
      some (⟨i, t.nextGeneration i⟩,
        { t with
          generations := Function.update t.generations i (t.nextGeneration i)
          count := t.count + 1 })

/-- `lookup`: the slot's thread, if the generations agree. -/
def lookup (t : ThreadTable) (id : ThreadId) : Option Thread :=
  if id.isNull then none
  else if maxThreads ≤ id.index then none
  else (t.slots id.index).filter fun th => th.id.generation == id.generation

/-- `with_thread_mut`, for a closure that returns nothing; an id that does not resolve
changes nothing. -/
def withThreadMut (t : ThreadTable) (id : ThreadId) (f : Thread → Thread) : ThreadTable :=
  match t.lookup id with
  | none => t
  | some th => { t with slots := Function.update t.slots id.index (some (f th)) }

/-- `create_thread`. -/
def createThread (t : ThreadTable) (priority : Priority) (ttbr0 asid : BitVec 64) :
    Option (ThreadId × ThreadTable) :=
  match t.allocSlot with
  | none => none
  | some (tid, t) =>
      some (tid, { t with
        slots := Function.update t.slots tid.index (some (Thread.new tid priority ttbr0 asid)) })

/-- `destroy_thread`: the slot is freed and keeps its generation. -/
def destroyThread (t : ThreadTable) (id : ThreadId) : ThreadTable :=
  match t.lookup id with
  | none => t
  | some _ => { t with slots := Function.update t.slots id.index none, count := t.count - 1 }

/-- `with_all_threads`: the allocated threads in slot order. -/
def allThreads (t : ThreadTable) : List Thread := (List.range maxThreads).filterMap t.slots

/-! ## Lookups -/

/-- Every thread sits in the slot its id names. -/
def Placed (t : ThreadTable) : Prop := ∀ i th, t.slots i = some th → th.id.index = i

theorem lookup_eq_some {t : ThreadTable} {id : ThreadId} {th : Thread} :
    t.lookup id = some th ↔ id.isNull = false ∧ id.index < maxThreads ∧
      t.slots id.index = some th ∧ th.id.generation = id.generation := by
  unfold lookup
  cases hn : id.isNull with
  | true => simp
  | false =>
    by_cases hi : maxThreads ≤ id.index
    · simp [hi]
    · simp only [hi, Bool.false_eq_true, if_false, Option.filter_eq_some_iff, beq_iff_eq,
        true_and]
      have : id.index < maxThreads := by omega
      simp [this]

/-- Overwriting the slot of a live thread, by a thread of the same generation or by nothing,
changes the lookup of that id only. -/
theorem lookup_update {t : ThreadTable} {id : ThreadId} {th : Thread}
    (hl : t.lookup id = some th) {o : Option Thread}
    (ho : ∀ th', o = some th' → th'.id.generation = id.generation) (j : ThreadId) :
    ({ t with slots := Function.update t.slots id.index o } : ThreadTable).lookup j =
      if j = id then o else t.lookup j := by
  obtain ⟨hn, hi, hs, hg⟩ := lookup_eq_some.mp hl
  by_cases hj : j = id
  · subst hj
    rw [if_pos rfl]
    cases o with
    | none => simp [lookup]
    | some th' => exact lookup_eq_some.mpr ⟨hn, hi, by simp, ho th' rfl⟩
  · rw [if_neg hj]
    by_cases hij : j.index = id.index
    · -- same slot, other generation: the lookup fails before and after
      have hgen : id.generation ≠ j.generation := fun h => hj (ThreadId.ext hij h.symm)
      have hfail : ∀ u : ThreadTable, (∀ th', u.slots j.index = some th' →
          th'.id.generation = id.generation) → u.lookup j = none := by
        intro u hu
        cases hu' : u.lookup j with
        | none => rfl
        | some th' =>
          obtain ⟨-, -, hs', hg'⟩ := lookup_eq_some.mp hu'
          exact absurd ((hu th' hs').symm.trans hg') hgen
      rw [hfail t, hfail]
      · intro th' hs'
        simp only [hij, Function.update_self] at hs'
        exact ho th' hs'
      · intro th' hs'
        rw [hij, hs, Option.some.injEq] at hs'
        rw [← hs', hg]
    · unfold lookup
      simp only [Function.update_of_ne hij]

/-- What `with_thread_mut` does to every lookup. -/
theorem lookup_withThreadMut (t : ThreadTable) {f : Thread → Thread}
    (hf : ∀ th, (f th).id = th.id) (id j : ThreadId) :
    (t.withThreadMut id f).lookup j = if j = id then (t.lookup id).map f else t.lookup j := by
  unfold withThreadMut
  cases hl : t.lookup id with
  | none =>
    by_cases hj : j = id
    · rw [if_pos hj, hj]
      exact hl
    · rw [if_neg hj]
  | some th =>
    have hg := (lookup_eq_some.mp hl).2.2.2
    refine lookup_update hl (fun th' h => ?_) j
    rw [← Option.some.inj h, hf, hg]

/-- What `destroy_thread` does to every lookup. -/
theorem lookup_destroyThread (t : ThreadTable) (id j : ThreadId) :
    (t.destroyThread id).lookup j = if j = id then none else t.lookup j := by
  unfold destroyThread
  cases hl : t.lookup id with
  | none =>
    by_cases hj : j = id
    · rw [if_pos hj, hj]
      exact hl
    · rw [if_neg hj]
  | some th => exact lookup_update hl (fun th' h => by cases h) j

theorem Placed.withThreadMut {t : ThreadTable} (h : t.Placed) {f : Thread → Thread}
    (hf : ∀ th, (f th).id = th.id) (id : ThreadId) : (t.withThreadMut id f).Placed := by
  unfold ThreadTable.withThreadMut
  cases hl : t.lookup id with
  | none => exact h
  | some th =>
    obtain ⟨-, -, hs, -⟩ := lookup_eq_some.mp hl
    intro i th' hth'
    by_cases hi : i = id.index
    · subst hi
      simp only [Function.update_self, Option.some.injEq] at hth'
      rw [← hth', hf]
      exact h _ _ hs
    · simp only [Function.update_of_ne hi] at hth'
      exact h _ _ hth'

theorem Placed.destroyThread {t : ThreadTable} (h : t.Placed) (id : ThreadId) :
    (t.destroyThread id).Placed := by
  unfold ThreadTable.destroyThread
  cases hl : t.lookup id with
  | none => exact h
  | some th =>
    intro i th' hth'
    by_cases hi : i = id.index
    · subst hi
      simp at hth'
    · simp only [Function.update_of_ne hi] at hth'
      exact h _ _ hth'

/-- What a successful `create_thread` does: a free slot other than slot 0's null id gets a new
thread, every other id resolves as before. -/
theorem createThread_eq_some {t t' : ThreadTable} {p : Priority} {tt as : BitVec 64}
    {tid : ThreadId} (h : t.createThread p tt as = some (tid, t')) :
    t.slots tid.index = none ∧ tid.index < maxThreads ∧
      t'.slots = Function.update t.slots tid.index (some (Thread.new tid p tt as)) := by
  unfold createThread allocSlot at h
  cases hf : Slots.firstFree maxThreads t.slots with
  | none =>
    rw [hf] at h
    cases h
  | some i =>
    rw [hf] at h
    cases h
    obtain ⟨hnone, hlt, -⟩ := Slots.firstFree_eq_some.mp hf
    exact ⟨hnone, hlt, rfl⟩

/-- The lookups after `create_thread`. -/
theorem lookup_createThread {t t' : ThreadTable} {p : Priority} {tt as : BitVec 64}
    {tid : ThreadId} (h : t.createThread p tt as = some (tid, t')) (hnull : tid.isNull = false)
    (j : ThreadId) :
    t'.lookup j = if j = tid then some (Thread.new tid p tt as) else t.lookup j := by
  obtain ⟨hfree, hlt, hslots⟩ := createThread_eq_some h
  by_cases hj : j = tid
  · rw [if_pos hj, hj]
    exact lookup_eq_some.mpr ⟨hnull, hlt, by rw [hslots, Function.update_self], rfl⟩
  · rw [if_neg hj]
    by_cases hij : j.index = tid.index
    · have hold : t.lookup j = none := by
        simp [lookup, hij, hfree]
      rw [hold]
      cases hl : t'.lookup j with
      | none => rfl
      | some th =>
        obtain ⟨-, -, hs, hg⟩ := lookup_eq_some.mp hl
        rw [hslots, hij, Function.update_self, Option.some.injEq] at hs
        rw [← hs] at hg
        exact absurd (ThreadId.ext hij hg.symm) hj
    · unfold lookup
      simp only [hslots, Function.update_of_ne hij]

theorem Placed.createThread {t t' : ThreadTable} (h : t.Placed) {p : Priority}
    {tt as : BitVec 64} {tid : ThreadId} (hc : t.createThread p tt as = some (tid, t')) :
    t'.Placed := by
  obtain ⟨-, -, hslots⟩ := createThread_eq_some hc
  intro i th hth
  rw [hslots] at hth
  by_cases hi : i = tid.index
  · subst hi
    rw [Function.update_self, Option.some.injEq] at hth
    rw [← hth]
    rfl
  · rw [Function.update_of_ne hi] at hth
    exact h _ _ hth

end ThreadTable

end QuackOS.Sche
