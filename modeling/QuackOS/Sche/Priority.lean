import QuackOS.Sche.Lifecycle

/-!
# Who runs next

`schedule` takes the next thread from the queue before it puts the running one back, so the
running thread does not compete.

* `QueueAgrees` — the queue holds the ready threads, each at its priority;
* `PicksHighest` — nobody who could run has a higher priority than the thread that runs, and of
  the queued threads of its priority the oldest runs first;
* `schedule_picksHighest_iff` — this is what `schedule` does unless the running thread has a
  higher priority than every ready one.
-/

namespace QuackOS.Sche

namespace Sched

/-- A thread is queued, once and at its priority, exactly when it is ready, and only the current
thread runs. -/
structure QueueAgrees (s : Sched) : Prop where
  valid : s.ready.Valid
  queued : ∀ tid p, (s.ready.list p).count tid = (s.readyAt tid p).toNat
  running : ∀ tid th, s.table.lookup tid = some th → th.state = .running → tid = s.current

theorem Invariant.queueAgrees {s : Sched} (h : s.Invariant True) : s.QueueAgrees :=
  ⟨h.valid, fun tid p => (h.queued tid p).2 trivial, h.running⟩

/-- From `s` the processor went to a thread of the highest priority there is among those that
were ready or running, the one queued longest if it was queued. -/
structure PicksHighest (s s' : Sched) : Prop where
  highest : ∃ cur, s'.table.lookup s'.current = some cur ∧
    ∀ tid th, s.table.lookup tid = some th → th.state = .ready ∨ th.state = .running →
      th.effectivePriority ≤ cur.effectivePriority
  oldest : ∀ cur, s'.table.lookup s'.current = some cur →
    ∀ tid rest, s.ready.list cur.effectivePriority = tid :: rest → s'.current = tid

variable {s : Sched}

/-- The ids in the queue are those of the ready threads. -/
theorem QueueAgrees.mem_list_iff (h : s.QueueAgrees) {tid : ThreadId} {p : Priority} :
    tid ∈ s.ready.list p ↔
      ∃ th, s.table.lookup tid = some th ∧ th.state = .ready ∧ th.effectivePriority = p := by
  rw [← List.count_pos_iff, h.queued]
  cases hb : s.readyAt tid p with
  | true =>
    obtain ⟨th, hl, hth⟩ := (Option.any_eq_true _ _).mp hb
    rw [decide_eq_true_eq] at hth
    exact iff_of_true (by decide) ⟨th, hl, hth.1, hth.2⟩
  | false =>
    refine iff_of_false (by decide) ?_
    rintro ⟨th, hl, hst, hp⟩
    rw [readyAt, hl] at hb
    simp [hst, hp] at hb

/-! ## Priorities stay -/

theorem lookup_setState (s : Sched) (tid t : ThreadId) (st : ThreadState) :
    (s.setState tid st).table.lookup t = if t = tid then
      (s.table.lookup tid).map fun th => { th with state := st } else s.table.lookup t :=
  ThreadTable.lookup_withThreadMut s.table (f := fun th => { th with state := st }) (fun _ => rfl)
    tid t

/-- Putting the current thread back changes nobody's priority. -/
theorem lookup_requeueCurrent {t : ThreadId} {th : Thread} (h : s.table.lookup t = some th) :
    ∃ th', s.requeueCurrent.table.lookup t = some th' ∧
      th'.effectivePriority = th.effectivePriority := by
  have hyield : ∃ th', (s.table.withThreadMut s.current Thread.yielded).lookup t = some th' ∧
      th'.effectivePriority = th.effectivePriority := by
    rw [ThreadTable.lookup_withThreadMut _ yielded_id]
    by_cases ht : t = s.current
    · rw [if_pos ht, ← ht, h]
      exact ⟨th.yielded, rfl, yielded_priority th⟩
    · rw [if_neg ht]
      exact ⟨th, h, rfl⟩
  unfold requeueCurrent
  cases s.current.isNull with
  | true => exact ⟨th, h, rfl⟩
  | false =>
    simp only [Bool.false_eq_true, if_false]
    split
    · exact hyield
    · split <;> exact hyield

/-- What `schedule` does when somebody is queued. -/
theorem schedule_current {next : ThreadId} {rq : ReadyQueue} {th : Thread}
    (hdeq : s.ready.dequeueReady = (some next, rq)) (h : s.table.lookup next = some th) :
    s.schedule.current = next ∧ ∃ th', s.schedule.table.lookup next = some th' ∧
      th'.effectivePriority = th.effectivePriority := by
  unfold schedule
  rw [hdeq]
  refine ⟨rfl, ?_⟩
  obtain ⟨th', hl, hp⟩ := lookup_requeueCurrent (s := { s with ready := rq }) h
  dsimp only
  rw [lookup_setState, if_pos rfl, hl]
  exact ⟨{ th' with state := .running }, rfl, hp⟩

/-! ## The pick -/

/-- **`schedule` picks the highest priority exactly when nobody is ready or some ready thread has
at least the priority of the running one.** -/
theorem schedule_picksHighest_iff (h : s.QueueAgrees) {cur : Thread}
    (hcur : s.table.lookup s.current = some cur) (hrun : cur.state = .running) :
    PicksHighest s s.schedule ↔
      (∀ tid th, s.table.lookup tid = some th → th.state ≠ .ready) ∨
        ∃ tid th, s.table.lookup tid = some th ∧ th.state = .ready ∧
          cur.effectivePriority ≤ th.effectivePriority := by
  rcases ReadyQueue.dequeueReady_spec h.valid with
    ⟨hnone, hempty⟩ | ⟨p, next, rest, rq, hdeq, hlist, habove, -, -⟩
  · -- nobody is queued, and the running thread goes on
    have hidle : ∀ tid th, s.table.lookup tid = some th → th.state ≠ .ready := by
      intro tid th hl hst
      have hmem := h.mem_list_iff.mpr ⟨th, hl, hst, rfl⟩
      rw [hempty] at hmem
      cases hmem
    have hsame : s.schedule = s := by
      unfold schedule
      rw [hnone]
    refine iff_of_true ?_ (Or.inl hidle)
    rw [hsame]
    refine ⟨⟨cur, hcur, fun tid th hl hst => ?_⟩, fun c hc tid rest hl => ?_⟩
    · rcases hst with hst | hst
      · exact absurd hst (hidle tid th hl)
      · rw [h.running tid th hl hst, hcur] at hl
        cases hl
        exact le_rfl
    · rw [hempty] at hl
      cases hl
  · obtain ⟨nth, hnl, hnst, hnp⟩ := h.mem_list_iff.mp (show next ∈ s.ready.list p by simp [hlist])
    obtain ⟨hnew, nth', hnl', hnp'⟩ := schedule_current hdeq hnl
    have hhigh : ∀ tid th, s.table.lookup tid = some th → th.state = .ready →
        th.effectivePriority ≤ p := by
      intro tid th hl hst
      by_contra hlt
      have hmem := h.mem_list_iff.mpr ⟨th, hl, hst, rfl⟩
      rw [habove _ (lt_of_not_ge hlt)] at hmem
      cases hmem
    constructor
    · intro hpick
      obtain ⟨c, hc, hmax⟩ := hpick.highest
      rw [hnew, hnl'] at hc
      cases hc
      have hle := hmax s.current cur hcur (Or.inr hrun)
      exact Or.inr ⟨next, nth, hnl, hnst, by rwa [hnp'] at hle⟩
    · rintro (hidle | ⟨tid, th, hl, hst, hle⟩)
      · exact absurd hnst (hidle next nth hnl)
      · refine ⟨⟨nth', by rw [hnew]; exact hnl', fun t u hu hut => ?_⟩, fun c hc t ts hts => ?_⟩
        · rw [hnp', hnp]
          rcases hut with hut | hut
          · exact hhigh t u hu hut
          · rw [h.running t u hu hut, hcur] at hu
            cases hu
            exact hle.trans (hhigh tid th hl hst)
        · rw [hnew, hnl'] at hc
          cases hc
          rw [hnp', hnp, hlist] at hts
          cases hts
          exact hnew

/-- The boot thread, of priority 128, runs; two threads of priority 200 and one of priority 100
are ready. -/
def severalReady : Sched :=
  run [.create 200 0 0 false, .create 100 0 0 false, .create 200 0 0 false]

theorem schedule_picksHighest_iff_several : severalReady.QueueAgrees ∧
    ((severalReady.ready.list 200).length = 2 ∧ (severalReady.ready.list 100).length = 1) ∧
    PicksHighest severalReady severalReady.schedule := by
  have hinv : severalReady.Invariant True := by
    refine Run.exec_invariant_along invariant_step (invariant_boot True) ?_
    exact ⟨fun _ => by decide +kernel, fun _ => by decide +kernel, fun _ => by decide +kernel, trivial⟩
  have hstate : ((severalReady.table.lookup severalReady.current).map fun th =>
        (th.state, th.effectivePriority)) = some (.running, 128) ∧
      (((severalReady.ready.list 200).head?.bind severalReady.table.lookup).map fun th =>
        (th.state, th.effectivePriority)) = some (.ready, 200) ∧
      (severalReady.ready.list 200).length = 2 ∧ (severalReady.ready.list 100).length = 1 := by
    decide +kernel
  obtain ⟨hcur, hready, hqueued⟩ := hstate
  obtain ⟨cur, hcur, hcurp⟩ := Option.map_eq_some_iff.mp hcur
  obtain ⟨th, hth, hthp⟩ := Option.map_eq_some_iff.mp hready
  obtain ⟨tid, -, hth⟩ := Option.bind_eq_some_iff.mp hth
  rw [Prod.mk.injEq] at hcurp hthp
  refine ⟨hinv.queueAgrees, hqueued, (schedule_picksHighest_iff hinv.queueAgrees hcur hcurp.1).mpr
    (Or.inr ⟨tid, th, hth, hthp.1, ?_⟩)⟩
  rw [hcurp.2, hthp.2]
  decide

/-- The boot thread, of priority 128, runs and a thread of priority 100 is ready. -/
def lowerReady : Sched := run [.create 100 0 0 false]

/-- The running thread loses the processor to one of lower priority. -/
theorem lowerReady_not_highest : lowerReady.QueueAgrees ∧
    (∃ cur, lowerReady.table.lookup lowerReady.current = some cur ∧ cur.state = .running) ∧
    ¬ PicksHighest lowerReady lowerReady.schedule := by
  have hinv : lowerReady.Invariant True :=
    invariant_step boot (.create 100 0 0 false) (invariant_boot True) fun _ => by decide +kernel
  have hold : (lowerReady.table.lookup bootTid).map
      (fun th => (th.state, th.effectivePriority)) = some (.running, 128) := by decide +kernel
  have hnew : (lowerReady.schedule.table.lookup lowerReady.schedule.current).map
      (fun th => th.effectivePriority) = some 100 := by decide +kernel
  obtain ⟨boot, hboot, hbootp⟩ := Option.map_eq_some_iff.mp hold
  rw [Prod.mk.injEq] at hbootp
  refine ⟨hinv.queueAgrees, ⟨boot, hboot, hbootp.1⟩, fun hpick => ?_⟩
  obtain ⟨cur, hcur, hmax⟩ := hpick.highest
  have hle := hmax bootTid boot hboot (Or.inr hbootp.1)
  rw [hcur, Option.map_some, Option.some.injEq] at hnew
  rw [hnew, hbootp.2] at hle
  exact absurd hle (by decide)

end Sched

end QuackOS.Sche
