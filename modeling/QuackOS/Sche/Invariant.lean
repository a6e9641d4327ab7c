import QuackOS.Lib.Run
import QuackOS.Sche.Context

/-!
# The scheduler invariant over runs

Thread state and queue membership are updated by separate statements, so each operation has to
keep them in step.  `Consistent` is what holds at every moment, `schedule` included;
`Invariant` is what holds between operations, when the current thread is running again.

A full ring makes `enqueue_ready` fail, and its callers ignore the error, so a ready thread may
be missing from the queue.  Both notions therefore take a proposition `L`: under `L` the queue
is lossless and a ready thread is queued exactly once; without it, at most once.
-/

namespace QuackOS.Sche

namespace Sched

/-- The thread is ready and has this priority. -/
def readyAt (s : Sched) (tid : ThreadId) (p : Priority) : Bool :=
  (s.table.lookup tid).any fun th => decide (th.state = .ready ∧ th.effectivePriority = p)

/-- The queue holds an id `n` times; it should hold it once or not at all, according to `b`. -/
def Agree (L : Prop) (n : Nat) (b : Bool) : Prop := n ≤ b.toNat ∧ (L → n = b.toNat)

/-- The state and the queue agree, except that the current thread may be on its way out. -/
structure Consistent (L : Prop) (s : Sched) : Prop where
  placed : s.table.Placed
  valid : s.ready.Valid
  /-- Every id is queued once at its priority if its thread is ready, and not otherwise. -/
  queued : ∀ tid p, Agree L ((s.ready.list p).count tid) (s.readyAt tid p)
  /-- Nobody but the current thread runs. -/
  running : ∀ tid th, s.table.lookup tid = some th → th.state = .running → tid = s.current
  /-- The current thread is there, and is not queued. -/
  current : ∃ th, s.table.lookup s.current = some th ∧ th.state ≠ .ready
  /-- Only a blocked thread waits in `wait4`. -/
  waiting : ∀ tid th, s.table.lookup tid = some th → th.ipcState = .blockedOnWait4 →
    th.state = .blocked
  /-- The boot thread, which has no parent to reap it, keeps slot 0. -/
  bootSlot : ∃ th, s.table.slots 0 = some th ∧ th.parentTid = none

/-- The invariant between operations. -/
structure Invariant (L : Prop) (s : Sched) : Prop extends Consistent L s where
  runs : ∀ th, s.table.lookup s.current = some th → th.state = .running

variable {L : Prop}

theorem Consistent.not_mem_list {s : Sched} (h : s.Consistent L) {tid : ThreadId} {th : Thread}
    (hl : s.table.lookup tid = some th) (hst : th.state ≠ .ready) (p : Priority) :
    tid ∉ s.ready.list p := by
  have hle := (h.queued tid p).1
  rw [← List.count_eq_zero]
  simpa [readyAt, hl, hst] using hle

/-- A queued id belongs to a ready thread of that priority. -/
theorem Consistent.of_mem_list {s : Sched} (h : s.Consistent L) {tid : ThreadId} {p : Priority}
    (hm : tid ∈ s.ready.list p) :
    ∃ th, s.table.lookup tid = some th ∧ th.state = .ready ∧ th.effectivePriority = p := by
  have hpos := List.count_pos_iff.mpr hm
  have hle := (h.queued tid p).1
  have hb : s.readyAt tid p = true := by
    by_contra hcon
    rw [Bool.not_eq_true] at hcon
    simp only [hcon, Bool.toNat_false] at hle
    omega
  obtain ⟨th, hl, hth⟩ := (Option.any_eq_true _ _).mp hb
  rw [decide_eq_true_eq] at hth
  exact ⟨th, hl, hth.1, hth.2⟩

end Sched

/-! ## Counting -/

namespace ReadyQueue

theorem count_enqueueReady {rq : ReadyQueue} (h : rq.Valid) (p : Priority) (tid t : ThreadId)
    (q : Priority) : ((rq.enqueueReady tid p).list q).count t = (rq.list q).count t +
      if q = p ∧ t = tid ∧ (rq.list p).length < ringCap then 1 else 0 := by
  rw [(enqueueReady_spec h tid p).2 q]
  by_cases hq : q = p ∧ (rq.list p).length < ringCap
  · obtain ⟨rfl, hroom⟩ := hq
    rw [if_pos ⟨rfl, hroom⟩, List.count_append, List.count_singleton]
    by_cases ht : t = tid
    · simp [ht, hroom]
    · simp [ht, Ne.symm ht]
  · rw [if_neg hq, if_neg (fun hc => hq ⟨hc.1, hc.2.2⟩), Nat.add_zero]

end ReadyQueue

namespace Sched

/-! ## Changing one thread -/

theorem bootSlot_withThreadMut {t : ThreadTable} {f : Thread → Thread}
    (hf : ∀ th, (f th).parentTid = th.parentTid)
    (h : ∃ th, t.slots 0 = some th ∧ th.parentTid = none) (tid : ThreadId) :
    ∃ th, (t.withThreadMut tid f).slots 0 = some th ∧ th.parentTid = none := by
  obtain ⟨b, hb, hpar⟩ := h
  unfold ThreadTable.withThreadMut
  cases hl : t.lookup tid with
  | none => exact ⟨b, hb, hpar⟩
  | some th =>
    obtain ⟨-, -, hs, -⟩ := ThreadTable.lookup_eq_some.mp hl
    by_cases h0 : tid.index = 0
    · rw [h0, hb, Option.some.injEq] at hs
      refine ⟨f th, by simp [h0], ?_⟩
      rw [hf, ← hs, hpar]
    · exact ⟨b, by simp [Function.update_of_ne (Ne.symm h0), hb], hpar⟩

/-- Changing what one id resolves to keeps the state consistent when the queue changes with it:
the new queue has the thread where it now belongs and everybody else where they were. -/
theorem Consistent.of_update {s s' : Sched} (h : s.Consistent L) (hplaced : s'.table.Placed)
    (hvalid : s'.ready.Valid) (hboot : ∃ th, s'.table.slots 0 = some th ∧ th.parentTid = none)
    (hc : s'.current = s.current) {tid : ThreadId} {o : Option Thread}
    (hlook : ∀ t, s'.table.lookup t = if t = tid then o else s.table.lookup t)
    (hcount : ∀ p, Agree L ((s'.ready.list p).count tid)
      (o.any fun th => decide (th.state = .ready ∧ th.effectivePriority = p)))
    (hcount' : ∀ t p, t ≠ tid → (s'.ready.list p).count t = (s.ready.list p).count t)
    (hrun : ∀ th, o = some th → th.state = .running → tid = s.current)
    (hcur : tid = s.current → ∃ th, o = some th ∧ th.state ≠ .ready)
    (hwait : ∀ th, o = some th → th.ipcState = .blockedOnWait4 → th.state = .blocked) :
    s'.Consistent L := by
  refine ⟨hplaced, hvalid, ?_, ?_, ?_, ?_, hboot⟩
  · intro t p
    rw [readyAt, hlook]
    split
    · rename_i ht
      rw [ht]
      exact hcount p
    · rename_i ht
      rw [hcount' t p ht]
      exact h.queued t p
  · intro t th ht hst
    rw [hlook] at ht
    rw [hc]
    split at ht
    · rename_i htt
      rw [htt]
      exact hrun th ht hst
    · exact h.running t th ht hst
  · obtain ⟨c, hcl, hcst⟩ := h.current
    rw [hc, hlook]
    split
    · rename_i hct
      exact hcur hct.symm
    · exact ⟨c, hcl, hcst⟩
  · intro t th ht hw
    rw [hlook] at ht
    split at ht
    · exact hwait th ht hw
    · exact h.waiting t th ht hw

/-- The same for a change through `with_thread_mut`. -/
theorem Consistent.change {s : Sched} (h : s.Consistent L) {tid : ThreadId} {th : Thread}
    (hl : s.table.lookup tid = some th) {f : Thread → Thread} (hid : ∀ th, (f th).id = th.id)
    (hpar : ∀ th, (f th).parentTid = th.parentTid) {rq : ReadyQueue} (hrq : rq.Valid)
    (hcount : ∀ p, Agree L ((rq.list p).count tid)
      (decide ((f th).state = .ready ∧ (f th).effectivePriority = p)))
    (hcount' : ∀ t p, t ≠ tid → (rq.list p).count t = (s.ready.list p).count t)
    (hrun : (f th).state = .running → tid = s.current)
    (hcur : tid = s.current → (f th).state ≠ .ready)
    (hwait : (f th).ipcState = .blockedOnWait4 → (f th).state = .blocked) :
    Consistent L { s with table := s.table.withThreadMut tid f, ready := rq } := by
  refine h.of_update (h.placed.withThreadMut hid tid) hrq
    (bootSlot_withThreadMut hpar h.bootSlot tid) rfl (o := some (f th)) (fun t => ?_) hcount
    hcount' (fun th' hth' => ?_) (fun hc => ⟨_, rfl, hcur hc⟩) (fun th' hth' => ?_)
  · rw [ThreadTable.lookup_withThreadMut _ hid, hl]
    rfl
  · cases hth'
    exact hrun
  · cases hth'
    exact hwait

/-- The queue does not change when readiness does not. -/
theorem Consistent.change_same {s : Sched} (h : s.Consistent L) {tid : ThreadId} {th : Thread}
    (hl : s.table.lookup tid = some th) {f : Thread → Thread} (hid : ∀ th, (f th).id = th.id)
    (hpar : ∀ th, (f th).parentTid = th.parentTid)
    (hprio : ∀ th, (f th).effectivePriority = th.effectivePriority)
    (hready : (f th).state = .ready ↔ th.state = .ready)
    (hrun : (f th).state = .running → tid = s.current)
    (hwait : (f th).ipcState = .blockedOnWait4 → (f th).state = .blocked) :
    Consistent L { s with table := s.table.withThreadMut tid f } := by
  refine h.change hl hid hpar h.valid (fun p => ?_) (fun _ _ _ => rfl) hrun (fun hc hst => ?_) hwait
  · have hq := h.queued tid p
    rw [readyAt, hl, Option.any_some] at hq
    rw [hprio]
    simpa only [hready] using hq
  · obtain ⟨c, hcl, hcst⟩ := h.current
    rw [← hc, hl, Option.some.injEq] at hcl
    rw [← hcl] at hcst
    exact hcst (hready.mp hst)

/-! ## One operation at a time -/

/-- An id that was not queued, after it has been enqueued at its priority. -/
theorem agree_enqueue {p q : Priority} {tid : ThreadId} {n : Nat} (hroom : L → n < ringCap) :
    Agree L (0 + if q = p ∧ tid = tid ∧ n < ringCap then 1 else 0)
      (decide (ThreadState.ready = .ready ∧ p = q)) := by
  by_cases hq : q = p
  · by_cases hn : n < ringCap
    · simp [Agree, hq, hn]
    · exact ⟨by simp [hn], fun hL => absurd (hroom hL) hn⟩
  · simp [Agree, hq, Ne.symm hq]

/-- Waking a thread that is neither ready nor running, with room in its ring. -/
theorem Consistent.wake {s : Sched} (h : s.Consistent L) {tid : ThreadId}
    (hcond : ∀ th, s.table.lookup tid = some th → th.state ≠ .ready ∧ tid ≠ s.current ∧
      (L → (s.ready.list th.effectivePriority).length < ringCap)) : (s.wake tid).Consistent L := by
  unfold Sched.wake
  cases hn : tid.isNull with
  | true => exact h
  | false =>
    cases hl : s.table.lookup tid with
    | none => exact h
    | some th =>
      obtain ⟨hst, hne, hroom⟩ := hcond th hl
      simp only [Bool.false_eq_true, if_false]
      refine h.change hl (by intro _; rfl) (by intro _; rfl)
        (ReadyQueue.enqueueReady_spec h.valid tid th.effectivePriority).1 (fun p => ?_)
        (fun t p ht => ?_) (by intro hc; cases hc) (fun hc => absurd hc hne) (by intro hc; cases hc)
      · rw [ReadyQueue.count_enqueueReady h.valid,
          List.count_eq_zero.mpr (h.not_mem_list hl hst p)]
        exact agree_enqueue hroom
      · rw [ReadyQueue.count_enqueueReady h.valid]
        simp [ht]

/-- `wake` leaves every other thread alone. -/
theorem lookup_wake_of_ne (s : Sched) {tid t : ThreadId} (h : t ≠ tid) :
    (s.wake tid).table.lookup t = s.table.lookup t := by
  unfold Sched.wake
  cases hn : tid.isNull with
  | true => rfl
  | false =>
    cases hl : s.table.lookup tid with
    | none => rfl
    | some th =>
      simp only [Bool.false_eq_true, if_false]
      exact (ThreadTable.lookup_withThreadMut s.table (by intro _; rfl) tid t).trans (if_neg h)

@[simp] theorem wake_current (s : Sched) (tid : ThreadId) : (s.wake tid).current = s.current := by
  unfold Sched.wake
  split
  · rfl
  · split <;> rfl

@[simp] theorem yielded_id (th : Thread) : th.yielded.id = th.id := by
  unfold Thread.yielded
  split <;> rfl

@[simp] theorem yielded_priority (th : Thread) :
    th.yielded.effectivePriority = th.effectivePriority := by
  unfold Thread.yielded
  split <;> rfl

@[simp] theorem yielded_parentTid (th : Thread) : th.yielded.parentTid = th.parentTid := by
  unfold Thread.yielded
  split <;> rfl

@[simp] theorem yielded_ipcState (th : Thread) : th.yielded.ipcState = th.ipcState := by
  unfold Thread.yielded
  split <;> rfl

theorem yielded_state (th : Thread) :
    th.yielded.state = if th.state = .running then .ready else th.state := by
  unfold Thread.yielded
  cases hs : th.state <;> simp [hs]

/-- What requeueing does to a current thread that is not ready. -/
theorem requeueCurrent_eq {s : Sched} {th : Thread}
    (hl : s.table.lookup s.current = some th) (hst : th.state ≠ .ready) :
    s.requeueCurrent = { s with
      table := s.table.withThreadMut s.current Thread.yielded
      ready := if th.state = .running then
        s.ready.enqueueReady s.current th.effectivePriority else s.ready } := by
  have hn := (ThreadTable.lookup_eq_some.mp hl).1
  have hlook : (s.table.withThreadMut s.current Thread.yielded).lookup s.current =
      some th.yielded := by
    rw [ThreadTable.lookup_withThreadMut _ yielded_id, if_pos rfl, hl]
    rfl
  unfold requeueCurrent
  simp only [hn, Bool.false_eq_true, if_false, hlook, yielded_state, yielded_priority]
  by_cases hr : th.state = .running
  · simp [hr]
  · simp [hr, hst]

/-- What `schedule` does when somebody is runnable: `next` leaves the queue and runs, and the
current thread is requeued if it was running. -/
theorem Consistent.schedule_eq {s : Sched} (h : s.Consistent L) {next : ThreadId} {rq : ReadyQueue}
    (hdeq : s.ready.dequeueReady = (some next, rq)) :
    ∃ nth cur, s.table.lookup next = some nth ∧ nth.state = .ready ∧
      s.table.lookup s.current = some cur ∧ cur.state ≠ .ready ∧ next ≠ s.current ∧
      s.schedule = { s with
        table := (s.table.withThreadMut s.current Thread.yielded).withThreadMut next
          fun th => { th with state := .running }
        ready := if cur.state = .running then
          rq.enqueueReady s.current cur.effectivePriority else rq
        current := next } ∧
      ∀ t, s.schedule.table.lookup t = if t = next then some { nth with state := .running } else
        if t = s.current then some cur.yielded else s.table.lookup t := by
  obtain ⟨cur, hcur, hcst⟩ := h.current
  rcases ReadyQueue.dequeueReady_spec h.valid with ⟨hnone, -⟩ | ⟨p, n, rest, rq', hd, hlist, -⟩
  · rw [hnone] at hdeq
    cases hdeq
  rw [hd] at hdeq
  cases hdeq
  obtain ⟨nth, hnl, hnst, -⟩ := h.of_mem_list (show next ∈ s.ready.list p by rw [hlist]; simp)
  have hne : next ≠ s.current := by
    rintro rfl
    rw [hcur, Option.some.injEq] at hnl
    rw [hnl] at hcst
    exact hcst hnst
  have hreq : ({ s with ready := rq } : Sched).requeueCurrent = { s with
      table := s.table.withThreadMut s.current Thread.yielded
      ready := if cur.state = .running then
        rq.enqueueReady s.current cur.effectivePriority else rq } :=
    requeueCurrent_eq hcur hcst
  set f : Thread → Thread := fun th => { th with state := .running }
  have hsched : s.schedule = { s with
      table := (s.table.withThreadMut s.current Thread.yielded).withThreadMut next f
      ready := if cur.state = .running then
        rq.enqueueReady s.current cur.effectivePriority else rq
      current := next } := by
    unfold Sched.schedule
    rw [hd]
    simp only [hreq, setState]
    rfl
  refine ⟨nth, cur, hnl, hnst, hcur, hcst, hne, hsched, fun t => ?_⟩
  rw [hsched, ThreadTable.lookup_withThreadMut _ (f := f) (fun _ => rfl)]
  rw [ThreadTable.lookup_withThreadMut _ yielded_id, ThreadTable.lookup_withThreadMut _ yielded_id,
    if_neg hne, hnl, hcur]
  rfl

/-- The queue that the next thread was taken from has everybody else as before, and that thread
no more. -/
theorem Consistent.dequeued {s : Sched} (h : s.Consistent L) {next : ThreadId} {rq : ReadyQueue}
    (hdeq : s.ready.dequeueReady = (some next, rq)) :
    rq.Valid ∧ (∀ q, (rq.list q).count next = 0) ∧
      ∀ t q, t ≠ next → (rq.list q).count t = (s.ready.list q).count t := by
  rcases ReadyQueue.dequeueReady_spec h.valid with ⟨hnone, -⟩ | ⟨p, n, rest, rq', hd, hlist, -, hv, hl⟩
  · rw [hnone] at hdeq
    cases hdeq
  rw [hd] at hdeq
  cases hdeq
  have hcount : ∀ t q, (s.ready.list q).count t =
      (rq.list q).count t + if q = p ∧ t = next then 1 else 0 := by
    intro t q
    rw [hl]
    by_cases hq : q = p
    · rw [if_pos hq, hq, hlist, List.count_cons]
      by_cases ht : t = next
      · simp [ht]
      · simp [ht, Ne.symm ht]
    · simp [hq]
  refine ⟨hv, fun q => ?_, fun t q ht => ?_⟩
  · -- it was queued once, at its own priority
    obtain ⟨nth, hnl, hnst, hnp⟩ :=
      h.of_mem_list (show next ∈ s.ready.list p by rw [hlist]; simp)
    have hle := (h.queued next q).1
    have hq := hcount next q
    simp only [readyAt, hnl, Option.any_some, hnst, hnp, true_and] at hle
    by_cases hqp : q = p
    · simp only [hqp, and_self, if_true, decide_true, Bool.toNat_true] at hle hq ⊢
      omega
    · simp only [hqp, Ne.symm hqp, false_and, if_false, decide_false, Bool.toNat_false] at hle hq
      omega
  · rw [hcount, if_neg fun hc => ht hc.2, Nat.add_zero]

/-- The queue after the current thread was put back, if it was running. -/
def requeued (rq : ReadyQueue) (current : ThreadId) (cur : Thread) : ReadyQueue :=
  if cur.state = .running then rq.enqueueReady current cur.effectivePriority else rq

theorem valid_requeued {rq : ReadyQueue} (h : rq.Valid) (current : ThreadId) (cur : Thread) :
    (requeued rq current cur).Valid := by
  unfold requeued
  split
  · exact (ReadyQueue.enqueueReady_spec h _ _).1
  · exact h

theorem count_requeued {rq : ReadyQueue} (h : rq.Valid) {current t : ThreadId} (cur : Thread)
    (ht : t ≠ current) (q : Priority) :
    ((requeued rq current cur).list q).count t = (rq.list q).count t := by
  unfold requeued
  split
  · rw [ReadyQueue.count_enqueueReady h]
    simp [ht]
  · rfl

/-- The thread that gives way is queued just when it was running. -/
theorem agree_requeued {rq : ReadyQueue} (h : rq.Valid) {current : ThreadId} {cur : Thread}
    (hst : cur.state ≠ .ready) (q : Priority) (hzero : (rq.list q).count current = 0)
    (hroom : cur.state = .running → L → (rq.list cur.effectivePriority).length < ringCap) :
    Agree L (((requeued rq current cur).list q).count current)
      (decide (cur.yielded.state = .ready ∧ cur.yielded.effectivePriority = q)) := by
  rw [requeued, yielded_state, yielded_priority]
  by_cases hr : cur.state = .running
  · rw [if_pos hr, if_pos hr, ReadyQueue.count_enqueueReady h, hzero]
    exact agree_enqueue (hroom hr)
  · rw [if_neg hr, if_neg hr, hzero]
    simp [Agree, hst]

/-- **`schedule` restores the invariant**: the current thread, running, blocked or dying, gives
way to the next one. -/
theorem Consistent.schedule {s : Sched} (h : s.Consistent L) {next : ThreadId} {rq : ReadyQueue}
    (hdeq : s.ready.dequeueReady = (some next, rq))
    (hroom : ∀ th, s.table.lookup s.current = some th → th.state = .running → L →
      (rq.list th.effectivePriority).length < ringCap) : s.schedule.Invariant L := by
  obtain ⟨nth, cur, hnl, hnst, hcur, hcst, hne, hsched, hlook⟩ := h.schedule_eq hdeq
  obtain ⟨hv, hzero, hrest⟩ := h.dequeued hdeq
  have hready : s.schedule.ready = requeued rq s.current cur := by
    rw [hsched]
    rfl
  refine ⟨⟨?_, by rw [hready]; exact valid_requeued hv _ _, ?_, ?_, ?_, ?_, ?_⟩, ?_⟩
  · rw [hsched]
    exact (h.placed.withThreadMut yielded_id _).withThreadMut (by intro _; rfl) _
  · intro t q
    rw [readyAt, hlook, hready]
    by_cases htn : t = next
    · rw [htn, if_pos rfl, count_requeued hv cur hne, hzero]
      simp [Agree]
    · rw [if_neg htn]
      by_cases htc : t = s.current
      · have hcount : (rq.list q).count s.current = 0 := by
          rw [hrest _ q (Ne.symm hne)]
          exact List.count_eq_zero.mpr (h.not_mem_list hcur hcst q)
        rw [htc, if_pos rfl, Option.any_some]
        exact agree_requeued hv hcst q hcount (hroom cur hcur)
      · rw [if_neg htc, count_requeued hv cur htc, hrest t q htn]
        exact h.queued t q
  · intro t th ht hst
    rw [hlook] at ht
    rw [hsched]
    by_cases htn : t = next
    · exact htn
    · rw [if_neg htn] at ht
      by_cases htc : t = s.current
      · rw [if_pos htc] at ht
        cases ht
        rw [yielded_state] at hst
        split at hst
        · cases hst
        · contradiction
      · rw [if_neg htc] at ht
        exact absurd (h.running t th ht hst) htc
  · refine ⟨{ nth with state := .running }, ?_, by simp⟩
    rw [hlook]
    simp [hsched]
  · intro t th ht hw
    rw [hlook] at ht
    split at ht
    · cases ht
      have := h.waiting next nth hnl hw
      rw [hnst] at this
      cases this
    · split at ht
      · cases ht
        rw [yielded_ipcState] at hw
        have hb := h.waiting _ _ hcur hw
        rw [yielded_state, hb]
        rfl
      · exact h.waiting t th ht hw
  · rw [hsched]
    exact bootSlot_withThreadMut (by intro _; rfl)
      (bootSlot_withThreadMut yielded_parentTid h.bootSlot _) _
  · intro th hth
    rw [hlook, hsched] at hth
    simp only [if_true, Option.some.injEq] at hth
    rw [← hth]

/-- The first half of `block_current` takes a thread off the processor. -/
theorem Consistent.markBlocked {s : Sched} (h : s.Consistent L) (ipc : IpcState) :
    (s.markBlocked ipc).Consistent L := by
  obtain ⟨th, hl, hst⟩ := h.current
  unfold Sched.markBlocked
  rw [(ThreadTable.lookup_eq_some.mp hl).1]
  simp only [Bool.false_eq_true, if_false]
  refine h.change_same hl (by intro _; rfl) (by intro _; rfl) (by intro _; rfl) ?_ (by simp)
    (by simp)
  simp [hst]

theorem markBlocked_ready (s : Sched) (ipc : IpcState) : (s.markBlocked ipc).ready = s.ready := by
  unfold markBlocked
  split <;> rfl

theorem lookup_markBlocked {s : Sched} {th : Thread} (h : s.table.lookup s.current = some th)
    (ipc : IpcState) : (s.markBlocked ipc).table.lookup (s.markBlocked ipc).current =
      some { th with state := .blocked, ipcState := ipc } := by
  unfold Sched.markBlocked
  rw [(ThreadTable.lookup_eq_some.mp h).1]
  simp only [Bool.false_eq_true, if_false]
  refine (ThreadTable.lookup_withThreadMut s.table (by intro _; rfl) _ _).trans ?_
  rw [if_pos rfl, h]
  rfl

/-- Something is runnable. -/
def HasReady (s : Sched) : Prop := ∃ p, s.ready.list p ≠ []

theorem Consistent.dequeue_of_hasReady {s : Sched} (h : s.Consistent L) (hr : s.HasReady) :
    ∃ next rq, s.ready.dequeueReady = (some next, rq) := by
  rcases ReadyQueue.dequeueReady_spec h.valid with ⟨-, hnil⟩ | ⟨p, n, rest, rq, hd, -⟩
  · obtain ⟨p, hp⟩ := hr
    exact absurd (hnil p) hp
  · exact ⟨n, rq, hd⟩

/-- `schedule` away from a thread that is no longer running needs somebody to run, and no room
in any ring. -/
theorem Consistent.schedule_away {s : Sched} (h : s.Consistent L) (hr : s.HasReady)
    (hst : ∀ th, s.table.lookup s.current = some th → th.state ≠ .running) :
    s.schedule.Invariant L := by
  obtain ⟨next, rq, hd⟩ := h.dequeue_of_hasReady hr
  exact h.schedule hd fun th hth hrun _ => absurd hrun (hst th hth)

theorem Invariant.blockCurrent {s : Sched} (h : s.Invariant L) (hr : s.HasReady) (ipc : IpcState) :
    (s.blockCurrent ipc).Invariant L := by
  obtain ⟨th, hl, -⟩ := h.current
  refine (h.toConsistent.markBlocked ipc).schedule_away ?_ (fun th' hth' => ?_)
  · unfold HasReady
    rw [markBlocked_ready]
    exact hr
  · rw [lookup_markBlocked hl, Option.some.injEq] at hth'
    rw [← hth']
    simp

/-- `schedule` called by a running thread. -/
theorem Invariant.schedule {s : Sched} (h : s.Invariant L)
    (hroom : L → ∀ next rq th, s.ready.dequeueReady = (some next, rq) →
      s.table.lookup s.current = some th → (rq.list th.effectivePriority).length < ringCap) :
    s.schedule.Invariant L := by
  rcases ReadyQueue.dequeueReady_spec h.valid with ⟨hnone, -⟩ | ⟨p, n, rest, rq, hd, -⟩
  · unfold Sched.schedule
    rw [hnone]
    exact h
  · exact h.toConsistent.schedule hd fun th hth _ hL => hroom hL n rq th hd hth

/-- The invariant survives a change of one thread other than the current one. -/
theorem Invariant.of_consistent {s s' : Sched} (h : s.Invariant L) (h' : s'.Consistent L)
    (hcur : s'.current = s.current)
    (hlook : s'.table.lookup s.current = s.table.lookup s.current) : s'.Invariant L where
  toConsistent := h'
  runs th hth := by
    rw [hcur, hlook] at hth
    exact h.runs th hth

theorem Invariant.ne_current {s : Sched} (h : s.Invariant L) {tid : ThreadId} {th : Thread}
    (hl : s.table.lookup tid = some th) (hst : th.state ≠ .running) : tid ≠ s.current := by
  rintro rfl
  exact hst (h.runs th hl)

/-- The condition on a wake: the thread is gone, or is neither ready nor running and its ring
has room. -/
def CanWake (s : Sched) (tid : ThreadId) : Prop :=
  ∀ th, s.table.lookup tid = some th → th.state ≠ .ready ∧ th.state ≠ .running ∧
    (s.ready.list th.effectivePriority).length < ringCap

theorem Invariant.wake {s : Sched} (h : s.Invariant L) {tid : ThreadId}
    (hst : ∀ th, s.table.lookup tid = some th → th.state ≠ .ready ∧ th.state ≠ .running)
    (hroom : L → s.CanWake tid) : (s.wake tid).Invariant L := by
  have hcons : (s.wake tid).Consistent L := h.toConsistent.wake fun th hl =>
    ⟨(hst th hl).1, h.ne_current hl (hst th hl).2, fun hL => (hroom hL th hl).2.2⟩
  refine h.of_consistent hcons (wake_current s tid) ?_
  cases hl : s.table.lookup tid with
  | none =>
    unfold Sched.wake
    rw [hl]
    split <;> rfl
  | some th => exact lookup_wake_of_ne s (h.ne_current hl (hst th hl).2).symm

end Sched

end QuackOS.Sche
