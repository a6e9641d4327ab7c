import QuackOS.Sche.Invariant

/-!
# Runs of the scheduler

Thread creation, exit, `wait4` and timeouts keep the scheduler invariant under the conditions
collected in `SchedOp.Safe`; a run whose operations are all safe keeps it throughout
(`schedulerInvariant_run`).  Where the conditions fail, so can the invariant
(`doubleWake_not_ok`).
-/

namespace QuackOS.Sche

namespace Sched

variable {L : Prop}

/-! ## Creation, exit and wait4 -/

section Touch

variable {f : Thread → Thread} (hid : ∀ th, (f th).id = th.id)
  (hpar : ∀ th, (f th).parentTid = th.parentTid)
  (hprio : ∀ th, (f th).effectivePriority = th.effectivePriority)
  (hstate : ∀ th, (f th).state = th.state)
  (hwait : ∀ th, (f th).ipcState = .blockedOnWait4 → th.ipcState = .blockedOnWait4)

include hid hpar hprio hstate hwait

/-- Updating fields the scheduler does not look at. -/
theorem Consistent.touch {s : Sched} (h : s.Consistent L) (tid : ThreadId) :
    Consistent L { s with table := s.table.withThreadMut tid f } := by
  cases hl : s.table.lookup tid with
  | none =>
    have heq : s.table.withThreadMut tid f = s.table := by
      simp only [ThreadTable.withThreadMut, hl]
    rw [heq]
    exact h
  | some th =>
    refine h.change_same hl hid hpar hprio (by rw [hstate]) ?_ ?_
    · intro hst
      rw [hstate] at hst
      exact h.running tid th hl hst
    · intro hw
      rw [hstate]
      exact h.waiting tid th hl (hwait th hw)

end Touch

@[simp] theorem expire_current (s : Sched) (tid : ThreadId) :
    (s.expire tid).current = s.current := by simp [Sched.expire]

/-- `expire` leaves every other thread alone. -/
theorem lookup_expire_of_ne (s : Sched) {tid t : ThreadId} (h : t ≠ tid) :
    (s.expire tid).table.lookup t = s.table.lookup t := by
  refine (ThreadTable.lookup_withThreadMut _ (by intro _; rfl) tid t).trans ?_
  rw [if_neg h, lookup_wake_of_ne _ h]
  refine (ThreadTable.lookup_withThreadMut _ (by intro _; rfl) tid t).trans ?_
  rw [if_neg h]

/-- An expired timeout is a wake, as far as the scheduler goes. -/
theorem Consistent.expire {s : Sched} (h : s.Consistent L) {tid : ThreadId}
    (hcond : ∀ th, s.table.lookup tid = some th → th.state ≠ .ready ∧ tid ≠ s.current ∧
      (L → (s.ready.list th.effectivePriority).length < ringCap)) :
    (s.expire tid).Consistent L := by
  set f : Thread → Thread := fun th => { th with ipcDeadline := 0 }
  have h1 : Consistent L { s with table := s.table.withThreadMut tid f } :=
    h.touch (f := f) (fun _ => rfl) (fun _ => rfl) (fun _ => rfl) (fun _ => rfl) (fun _ hw => hw)
      tid
  refine (h1.wake fun th hth => ?_).touch (by intro _; rfl) (by intro _; rfl) (by intro _; rfl)
    (by intro _; rfl) (by intro _ hw; cases hw) tid
  simp only [ThreadTable.lookup_withThreadMut _ (f := f) (fun _ => rfl), if_true] at hth
  obtain ⟨th', hth', rfl⟩ := Option.map_eq_some_iff.mp hth
  exact hcond th' hth'

theorem Invariant.expire {s : Sched} (h : s.Invariant L) {tid : ThreadId}
    (hst : ∀ th, s.table.lookup tid = some th → th.state ≠ .ready ∧ th.state ≠ .running)
    (hroom : L → s.CanWake tid) : (s.expire tid).Invariant L := by
  cases hl : s.table.lookup tid with
  | none =>
    have heq : s.expire tid = s := by
      simp [Sched.expire, Sched.wake, ThreadTable.withThreadMut, hl]
    rw [heq]
    exact h
  | some th =>
    have hne := h.ne_current hl (hst th hl).2
    refine h.of_consistent (h.toConsistent.expire fun th' hl' => ?_) (expire_current s tid)
      (lookup_expire_of_ne s hne.symm)
    exact ⟨(hst th' hl').1, hne, fun hL => (hroom hL th' hl').2.2⟩

/-- A slot that is free resolves no id. -/
theorem lookup_of_free {t : ThreadTable} {tid : ThreadId} (h : t.slots tid.index = none) :
    t.lookup tid = none := by
  cases hl : t.lookup tid with
  | none => rfl
  | some th =>
    rw [(ThreadTable.lookup_eq_some.mp hl).2.2.1] at h
    cases h

/-- The table `create` leaves: a child knows its parent. -/
theorem created_table {t t' : ThreadTable} {p : Priority} {tt as : BitVec 64} {tid : ThreadId}
    (hct : t.createThread p tt as = some (tid, t')) (hplaced : t.Placed) {b : Thread}
    (hb : t.slots 0 = some b) (parent : ThreadId) {child : Bool} {table : ThreadTable}
    (htable : table = if child = true then
      t'.withThreadMut tid (fun th => { th with parentTid := some parent }) else t') :
    table.Placed ∧ table.slots 0 = some b ∧ ∃ nth : Thread, nth.state = .ready ∧
      nth.ipcState = .ready ∧ nth.effectivePriority = p ∧
      ∀ j, table.lookup j = if j = tid then some nth else t.lookup j := by
  obtain ⟨hfree, -, hslots⟩ := ThreadTable.createThread_eq_some hct
  have h0 : tid.index ≠ 0 := by
    intro h0
    rw [h0, hb] at hfree
    cases hfree
  have hnull : tid.isNull = false := by simp [ThreadId.isNull, h0]
  have hplaced' := hplaced.createThread hct
  have hslot : t'.slots 0 = some b := by
    rw [hslots, Function.update_of_ne (Ne.symm h0), hb]
  have hlook := ThreadTable.lookup_createThread hct hnull
  cases child with
  | false =>
    cases htable
    exact ⟨hplaced', hslot, _, rfl, rfl, rfl, hlook⟩
  | true =>
    set f : Thread → Thread := fun th => { th with parentTid := some parent }
    have hid : ∀ th, (f th).id = th.id := fun _ => rfl
    rw [if_pos rfl] at htable
    subst htable
    refine ⟨hplaced'.withThreadMut hid _, ?_, f (Thread.new tid p tt as), rfl, rfl, rfl, ?_⟩
    · unfold ThreadTable.withThreadMut
      split
      · exact hslot
      · simp only [Function.update_of_ne (Ne.symm h0), hslot]
    · intro j
      rw [ThreadTable.lookup_withThreadMut _ hid, hlook, hlook, if_pos rfl]
      by_cases hj : j = tid
      · rw [if_pos hj, if_pos hj]
        rfl
      · rw [if_neg hj, if_neg hj, if_neg hj]

/-- Creating a thread and queueing it, with room in its ring. -/
theorem Consistent.create {s s' : Sched} (h : s.Consistent L) {p : Priority} {tt as : BitVec 64}
    {child : Bool} {tid : ThreadId} (hc : s.create p tt as child = some (tid, s'))
    (hroom : L → (s.ready.list p).length < ringCap) : s'.Consistent L ∧
      s'.current = s.current ∧ tid ≠ s.current ∧ s.table.lookup tid = none ∧
      ∃ nth : Thread, nth.state = .ready ∧ nth.ipcState = .ready ∧
        ∀ t, s'.table.lookup t = if t = tid then some nth else s.table.lookup t := by
  unfold Sched.create at hc
  cases hct : s.table.createThread p tt as with
  | none =>
    rw [hct] at hc
    cases hc
  | some r =>
    obtain ⟨tid', t'⟩ := r
    simp only [hct, Option.some.injEq, Prod.mk.injEq] at hc
    obtain ⟨rfl, rfl⟩ := hc
    obtain ⟨b, hb, hbpar⟩ := h.bootSlot
    have hold := lookup_of_free (ThreadTable.createThread_eq_some hct).1
    obtain ⟨hplaced, hslot, nth, hnst, hnipc, hnp, hlook⟩ :=
      @created_table _ _ p tt as tid' hct h.placed b hb s.current child _ rfl
    have hcur : tid' ≠ s.current := by
      rintro rfl
      obtain ⟨c, hcl, -⟩ := h.current
      rw [hcl] at hold
      cases hold
    refine ⟨?_, rfl, hcur, hold, nth, hnst, hnipc, hlook⟩
    refine h.of_update hplaced (ReadyQueue.enqueueReady_spec h.valid tid' p).1
      ⟨b, hslot, hbpar⟩ rfl hlook (fun q => ?_) (fun t q ht => ?_) (fun th hth hst => ?_)
      (fun hc => absurd hc hcur) (fun th hth hw => ?_)
    · have hzero : (s.ready.list q).count tid' = 0 := by
        have hle := (h.queued tid' q).1
        rw [readyAt, hold] at hle
        simpa using hle
      rw [ReadyQueue.count_enqueueReady h.valid, hzero, Option.any_some, hnst, hnp]
      exact agree_enqueue hroom
    · rw [ReadyQueue.count_enqueueReady h.valid]
      simp [ht]
    · cases hth
      rw [hnst] at hst
      cases hst
    · cases hth
      rw [hnipc] at hw
      cases hw

/-- A thread that is about to die. -/
theorem Invariant.markDying {s : Sched} (h : s.Invariant L) (code : BitVec 32) :
    (s.markDying code).Consistent L ∧ ∀ th, (s.markDying code).table.lookup s.current = some th →
      th.state = .dying := by
  obtain ⟨th, hl, hst⟩ := h.current
  have hrun := h.runs th hl
  unfold Sched.markDying
  refine ⟨h.change_same hl (by intro _; rfl) (by intro _; rfl) (by intro _; rfl) ?_ (by simp) ?_, ?_⟩
  · simp [hrun]
  · intro hw
    have := h.waiting _ _ hl hw
    rw [hrun] at this
    cases this
  · intro th' hth'
    set f : Thread → Thread := fun th => { th with exitCode := code, state := .dying }
    simp only [ThreadTable.lookup_withThreadMut _ (f := f) (fun _ => rfl), if_true, hl,
      Option.map_some, Option.some.injEq] at hth'
    rw [← hth']

/-- Dying does not change which parent is waiting. -/
theorem waitingParent_markDying (s : Sched) (code : BitVec 32) :
    (s.markDying code).waitingParent = s.waitingParent := by
  set f : Thread → Thread := fun th => { th with exitCode := code, state := .dying }
  have hlook : ∀ t, (s.markDying code).table.lookup t =
      if t = s.current then (s.table.lookup t).map f else s.table.lookup t := by
    intro t
    refine (ThreadTable.lookup_withThreadMut s.table (f := f) (fun _ => rfl) _ t).trans ?_
    by_cases ht : t = s.current
    · rw [if_pos ht, if_pos ht, ht]
    · rw [if_neg ht, if_neg ht]
  have hcur : (s.markDying code).current = s.current := rfl
  unfold waitingParent
  rw [hcur, hlook, if_pos rfl]
  have hpar : ((s.table.lookup s.current).map f).bind (·.parentTid) =
      (s.table.lookup s.current).bind (·.parentTid) := by
    cases s.table.lookup s.current <;> rfl
  rw [hpar]
  congr 1
  funext pid
  rw [hlook]
  split
  · cases s.table.lookup pid <;> rfl
  · rfl

/-- The condition on an exit: a waiting parent finds room in its ring, or somebody else is
runnable. -/
def CanExit (s : Sched) : Prop :=
  match s.waitingParent with
  | none => s.HasReady
  | some pid => ∀ th, s.table.lookup pid = some th →
      (s.ready.list th.effectivePriority).length < ringCap

theorem Invariant.sysExitThread {s : Sched} (h : s.Invariant L) (code : BitVec 32)
    (hc : s.CanExit) : (s.sysExitThread code).Invariant L := by
  obtain ⟨hcons, hdying⟩ := h.markDying code
  have hst : ∀ th, (s.markDying code).table.lookup s.current = some th → th.state ≠ .running := by
    intro th hth
    rw [hdying th hth]
    simp
  unfold Sched.sysExitThread
  simp only [waitingParent_markDying]
  unfold CanExit at hc
  cases hp : s.waitingParent with
  | none =>
    rw [hp] at hc
    exact hcons.schedule_away hc hst
  | some pid =>
    rw [hp] at hc
    simp only at hc ⊢
    rw [← waitingParent_markDying s code] at hp
    obtain ⟨-, hany⟩ := Option.filter_eq_some_iff.mp hp
    obtain ⟨pth, hpl, hpw⟩ := (Option.any_eq_true _ _).mp hany
    have hblocked := hcons.waiting pid pth hpl (beq_iff_eq.mp hpw)
    have hne : pid ≠ s.current := by
      rintro rfl
      rw [hdying pth hpl] at hblocked
      cases hblocked
    have hsame : s.table.lookup pid = some pth := by
      rw [← hpl]
      refine ((ThreadTable.lookup_withThreadMut s.table (by intro _; rfl) _ pid).trans ?_).symm
      rw [if_neg hne]
    have hroom : ((s.markDying code).ready.list pth.effectivePriority).length < ringCap :=
      hc pth hsame
    have hwoken : ((s.markDying code).wake pid).Consistent L := by
      refine hcons.wake fun th hth => ?_
      rw [hpl, Option.some.injEq] at hth
      subst hth
      exact ⟨by rw [hblocked]; simp, hne, fun _ => hroom⟩
    refine hwoken.schedule_away ⟨pth.effectivePriority, ?_⟩ (fun th hth => ?_)
    · have hnn := (ThreadTable.lookup_eq_some.mp hpl).1
      unfold Sched.wake
      simp only [hnn, hpl, Bool.false_eq_true, if_false]
      rw [(ReadyQueue.enqueueReady_spec hcons.valid pid _).2, if_pos ⟨rfl, hroom⟩]
      simp
    · rw [wake_current] at hth
      have hcur : (s.markDying code).current = s.current := rfl
      rw [hcur, lookup_wake_of_ne _ (Ne.symm hne)] at hth
      exact hst th hth

/-- A child found by the scan resolves to itself. -/
theorem Consistent.lookup_child {s : Sched} (h : s.Consistent L) {c : Thread}
    (hc : c ∈ s.children) : s.table.lookup c.id = some c ∧ c.id.index ≠ 0 := by
  obtain ⟨hmem, hpar⟩ := List.mem_filter.mp hc
  obtain ⟨i, hi, hs⟩ := List.mem_filterMap.mp hmem
  have hidx := h.placed _ _ hs
  obtain ⟨b, hb, hbpar⟩ := h.bootSlot
  have h0 : c.id.index ≠ 0 := by
    intro h0
    rw [← hidx, h0, hb, Option.some.injEq] at hs
    rw [← hs, hbpar] at hpar
    cases hpar
  refine ⟨ThreadTable.lookup_eq_some.mpr ⟨by simp [ThreadId.isNull, h0], ?_, ?_, rfl⟩, h0⟩
  · rw [hidx]
    exact List.mem_range.mp hi
  · rw [hidx]
    exact hs

/-- Reaping a dying child. -/
theorem Consistent.reap {s : Sched} (h : s.Consistent L) {c : Thread} (hc : c ∈ s.children)
    (hdy : c.state = .dying) (hne : c.id ≠ s.current) :
    Consistent L { s with table := s.table.destroyThread c.id } := by
  obtain ⟨hl, h0⟩ := h.lookup_child hc
  obtain ⟨b, hb, hbpar⟩ := h.bootSlot
  have hslot : (s.table.destroyThread c.id).slots 0 = some b := by
    unfold ThreadTable.destroyThread
    rw [hl]
    simp only [Function.update_of_ne (Ne.symm h0), hb]
  refine h.of_update (h.placed.destroyThread c.id) h.valid ⟨b, hslot, hbpar⟩ rfl
    (ThreadTable.lookup_destroyThread s.table c.id) (fun p => ?_) (fun _ _ _ => rfl)
    (fun th hth => by cases hth) (fun hcc => absurd hcc hne) (fun th hth => by cases hth)
  rw [List.count_eq_zero.mpr (h.not_mem_list hl (by rw [hdy]; simp) p)]
  exact ⟨Nat.zero_le _, fun _ => rfl⟩

theorem Invariant.reap {s : Sched} (h : s.Invariant L) {c : Thread} (hc : c ∈ s.children)
    (hdy : c.state = .dying) : Invariant L { s with table := s.table.destroyThread c.id } := by
  obtain ⟨hl, -⟩ := h.toConsistent.lookup_child hc
  have hne : c.id ≠ s.current := h.ne_current hl (by rw [hdy]; simp)
  refine h.of_consistent (h.toConsistent.reap hc hdy hne) rfl ?_
  simp only [ThreadTable.lookup_destroyThread, if_neg (Ne.symm hne)]

/-- The condition on `wait4`: if it will block, somebody else is runnable. -/
def CanWait (s : Sched) : Prop :=
  s.children ≠ [] → (∀ c ∈ s.children, c.state ≠ .dying) → s.HasReady

theorem Invariant.sysWait4 {s : Sched} (h : s.Invariant L) (hc : s.CanWait) :
    s.sysWait4.2.Invariant L := by
  unfold Sched.sysWait4
  cases hf : s.children.find? fun th => th.state == .dying with
  | some c =>
    have hdy := List.find?_some hf
    exact h.reap (List.mem_of_find?_eq_some hf) (beq_iff_eq.mp hdy)
  | none =>
    rw [List.find?_eq_none] at hf
    simp only
    split
    · exact h
    · rename_i hne
      rw [List.isEmpty_iff] at hne
      exact h.blockCurrent (hc hne fun c hc => by simpa using hf c hc) _

end Sched

/-! ## Runs -/

/-- The operations of the scheduler, with all their arguments. -/
inductive SchedOp
  | create (priority : Priority) (ttbr0 asid : BitVec 64) (child : Bool)
  | schedule
  | blockCurrent (ipc : IpcState)
  | wake (tid : ThreadId)
  | expire (tid : ThreadId)
  | exit (code : BitVec 32)
  | wait4

namespace Sched

/-- One operation. -/
def step (s : Sched) : SchedOp → Sched
  | .create p tt as child =>
      match s.create p tt as child with
      | none => s
      | some (_, s') => s'
  | .schedule => s.schedule
  | .blockCurrent ipc => s.blockCurrent ipc
  | .wake tid => s.wake tid
  | .expire tid => s.expire tid
  | .exit code => s.sysExitThread code
  | .wait4 => s.sysWait4.2

/-- The condition on a step.
* what is queued finds room among the 64 places of its priority;
* a thread stops running only when another one is runnable;
* only threads that are neither ready nor running are woken. -/
def Safe (s : Sched) : SchedOp → Prop
  | .create p tt as child => s.create p tt as child ≠ none → (s.ready.list p).length < ringCap
  | .schedule => ∀ next rq th, s.ready.dequeueReady = (some next, rq) →
      s.table.lookup s.current = some th → (rq.list th.effectivePriority).length < ringCap
  | .blockCurrent _ => s.HasReady
  | .wake tid => s.CanWake tid
  | .expire tid => s.CanWake tid
  | .exit _ => s.CanExit
  | .wait4 => s.CanWait

/-- Every safe step keeps the invariant. -/
theorem invariant_step (s : Sched) (op : SchedOp) (h : s.Invariant True) (hs : s.Safe op) :
    (s.step op).Invariant True := by
  cases op with
  | create p tt as child =>
    cases hc : s.create p tt as child with
    | none =>
      simp only [step, hc]
      exact h
    | some r =>
      simp only [step, hc]
      obtain ⟨hcons, hcur, hne, -, nth, -, -, hlook⟩ :=
        h.toConsistent.create hc fun _ => hs (by rw [hc]; simp)
      exact h.of_consistent hcons hcur (by rw [hlook, if_neg (Ne.symm hne)])
  | schedule => exact h.schedule fun _ => hs
  | blockCurrent ipc => exact h.blockCurrent hs ipc
  | wake tid => exact h.wake (fun th hth => ⟨(hs th hth).1, (hs th hth).2.1⟩) fun _ => hs
  | expire tid => exact h.expire (fun th hth => ⟨(hs th hth).1, (hs th hth).2.1⟩) fun _ => hs
  | exit code => exact h.sysExitThread code hs
  | wait4 => exact h.sysWait4 hs

/-- What the scheduler's documentation promises: a live thread is ready exactly when its id is
queued, then once and at its effective priority; no running, blocked or dying thread is queued;
and the current thread is the one that is running. -/
structure SchedulerInvariant (s : Sched) : Prop where
  ready_iff : ∀ tid th, s.table.lookup tid = some th →
    (th.state = .ready ↔ ∃ p, tid ∈ s.ready.list p)
  once : ∀ tid th, s.table.lookup tid = some th → th.state = .ready →
    ∀ p, (s.ready.list p).count tid = if p = th.effectivePriority then 1 else 0
  not_queued : ∀ tid th, s.table.lookup tid = some th →
    th.state = .running ∨ th.state = .blocked ∨ th.state = .dying → ∀ p, tid ∉ s.ready.list p
  current : ∃ th, s.table.lookup s.current = some th ∧ th.state = .running
  only : ∀ tid th, s.table.lookup tid = some th → th.state = .running → tid = s.current

theorem Invariant.schedulerInvariant {s : Sched} (h : s.Invariant True) : s.SchedulerInvariant where
  ready_iff tid th hl := by
    constructor
    · intro hst
      refine ⟨th.effectivePriority, List.count_pos_iff.mp ?_⟩
      rw [(h.queued tid th.effectivePriority).2 trivial]
      simp [readyAt, hl, hst]
    · rintro ⟨p, hp⟩
      obtain ⟨th', hl', hst, -⟩ := h.of_mem_list hp
      rw [hl, Option.some.injEq] at hl'
      rw [hl', hst]
  once tid th hl hst p := by
    rw [(h.queued tid p).2 trivial]
    by_cases hp : p = th.effectivePriority
    · simp [readyAt, hl, hst, hp]
    · simp [readyAt, hl, hst, hp, Ne.symm hp]
  not_queued tid th hl hst p := by
    refine h.not_mem_list hl ?_ p
    rintro hr
    rw [hr] at hst
    simp at hst
  current := by
    obtain ⟨th, hl, -⟩ := h.current
    exact ⟨th, hl, h.runs th hl⟩
  only := h.running

theorem boot_table : ∃ t', ThreadTable.new.createThread 128 0 0 = some (bootTid, t') ∧
    boot.table = t'.withThreadMut bootTid fun th => { th with state := .running } := ⟨_, rfl, rfl⟩

/-- The boot thread is the only thread at boot, and it is running. -/
theorem lookup_boot (t : ThreadId) : boot.table.lookup t =
    if t = bootTid then some { Thread.new bootTid 128 0 0 with state := .running } else none := by
  obtain ⟨t', ht', hboot⟩ := boot_table
  have hnone : ∀ t, ThreadTable.new.lookup t = none := by
    intro t
    simp [ThreadTable.lookup, ThreadTable.new]
  set f : Thread → Thread := fun th => { th with state := .running }
  rw [hboot, ThreadTable.lookup_withThreadMut _ (f := f) (fun _ => rfl),
    ThreadTable.lookup_createThread ht' (by decide), ThreadTable.lookup_createThread ht' (by decide),
    if_pos rfl, hnone]
  by_cases ht : t = bootTid
  · simp [ht, f]
  · simp [ht]

theorem invariant_boot (L : Prop) : boot.Invariant L := by
  have hcur : boot.current = bootTid := rfl
  have hready : boot.ready = ReadyQueue.new := rfl
  refine ⟨⟨?_, by rw [hready]; exact ReadyQueue.valid_new, ?_, ?_, ?_, ?_, ⟨_, rfl, rfl⟩⟩, ?_⟩
  · obtain ⟨t', ht', hboot⟩ := boot_table
    have hplaced : t'.Placed := ThreadTable.Placed.createThread (fun i th h => by cases h) ht'
    rw [hboot]
    exact hplaced.withThreadMut (by intro _; rfl) _
  · intro tid p
    rw [hready, readyAt, lookup_boot]
    split <;> simp [Agree]
  · intro tid th hl _
    rw [lookup_boot] at hl
    split at hl
    · assumption
    · cases hl
  · refine ⟨_, by rw [hcur, lookup_boot, if_pos rfl], by simp⟩
  · intro tid th hl hw
    rw [lookup_boot] at hl
    split at hl
    · cases hl
      cases hw
    · cases hl
  · intro th hl
    rw [hcur, lookup_boot, if_pos rfl, Option.some.injEq] at hl
    rw [← hl]

/-- The state after a sequence of operations from boot. -/
def run (ops : List SchedOp) : Sched := Run.exec step boot ops

end Sched

/-- A receiver blocks and is woken twice: by the sender that delivers to it, and by the timer
interrupt that finds its timeout expired before it has run. -/
def doubleWake : List SchedOp :=
  [.create 128 0 0 false, .blockCurrent (.blockedOnReceive 0), .wake Sched.bootTid,
    .expire Sched.bootTid]

/-- **Two wakes queue a thread twice.** -/
theorem doubleWake_not_ok : ¬ (Sched.run doubleWake).SchedulerInvariant := by
  intro h
  have hstate : ((Sched.run doubleWake).table.lookup Sched.bootTid).map
      (fun th => (th.state, th.effectivePriority)) = some (.ready, 128) := by decide +kernel
  obtain ⟨th, hl, hth⟩ := Option.map_eq_some_iff.mp hstate
  rw [Prod.mk.injEq] at hth
  have honce := h.once _ _ hl hth.1 128
  rw [hth.2] at honce
  exact absurd honce (by decide +kernel)

/-- **The scheduler invariant.**  In every run from boot whose steps are all safe, every state
the run passes through has its ready threads queued once at their priority, nobody else queued,
and the current thread as the only running one. -/
theorem schedulerInvariant_run (ops : List SchedOp)
    (h : Run.Along Sched.step Sched.Safe Sched.boot ops) (pre : List SchedOp)
    (hpre : pre <+: ops) : (Sched.run pre).SchedulerInvariant :=
  (Run.exec_invariant_prefix Sched.invariant_step (Sched.invariant_boot True) h hpre).schedulerInvariant

/-- The same receiver, woken once. -/
def singleWake : List SchedOp :=
  [.create 128 0 0 false, .blockCurrent (.blockedOnReceive 0), .wake Sched.bootTid, .schedule]

theorem schedulerInvariant_run_singleWake :
    Run.Along Sched.step Sched.Safe Sched.boot singleWake ∧
    (Sched.run singleWake).SchedulerInvariant := by
  have hrun : Run.Along Sched.step Sched.Safe Sched.boot singleWake := by
    refine ⟨fun _ => by decide +kernel, ⟨128, by decide +kernel⟩, ?_, ?_, trivial⟩
    · intro th hth
      have hall : ((Sched.run (singleWake.take 2)).table.lookup Sched.bootTid).all (fun th =>
          decide (th.state ≠ .ready ∧ th.state ≠ .running ∧ ((Sched.run (singleWake.take 2)).ready.list
            th.effectivePriority).length < ringCap)) = true := by decide +kernel
      exact of_decide_eq_true ((Option.all_eq_true _ _).mp hall th hth)
    · intro next rq th hd hth
      have hall : ((Sched.run (singleWake.take 3)).table.lookup
          (Sched.run (singleWake.take 3)).current).all (fun th => decide
          (((Sched.run (singleWake.take 3)).ready.dequeueReady.2.list th.effectivePriority).length <
            ringCap)) = true := by decide +kernel
      have hq : (Sched.run (singleWake.take 3)).ready.dequeueReady.2 = rq := congrArg Prod.snd hd
      rw [← hq]
      exact of_decide_eq_true ((Option.all_eq_true _ _).mp hall th hth)
  exact ⟨hrun, schedulerInvariant_run singleWake hrun _ List.prefix_rfl⟩

end QuackOS.Sche
