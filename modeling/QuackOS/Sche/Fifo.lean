import Mathlib.Algebra.BigOperators.Fin
import QuackOS.Sche.Queue

/-!
# The ready queue is a priority FIFO

To its callers a ready queue is a list of ids for each priority (`Levels`).  The bitmap and the
256 rings are to answer as these lists do, whatever the order of the calls.

* `QueueCall.onQueue`, `QueueCall.onLevels` — a call on the queue, and what it is for;
* `Agrees` — bitmap, counts and rings show the lists;
* `runQueue_agrees` — **every run of `enqueue` and `dequeue` answers as the lists do**.
-/

namespace QuackOS.Sche

/-- The ids queued at each priority, oldest first. -/
abbrev Levels := Priority → List ThreadId

namespace Levels

/-- The highest priority that has an id. -/
def highest (L : Levels) : Option Priority :=
  (List.finRange 256).reverse.find? fun p => L p ≠ []

theorem highest_eq_none {L : Levels} : L.highest = none ↔ ∀ p, L p = [] := by
  rw [highest, List.find?_eq_none]
  constructor
  · intro h p
    simpa using h p (List.mem_reverse.mpr (List.mem_finRange p))
  · intro h p _
    simp [h p]

theorem highest_eq_some {L : Levels} {p : Priority} (hp : L p ≠ []) (habove : ∀ q, p < q → L q = []) :
    L.highest = some p := by
  have hsorted : (List.finRange 256).reverse.Pairwise (· > ·) :=
    List.pairwise_reverse.mpr (List.pairwise_lt_finRange _)
  obtain ⟨as, bs, hsplit⟩ :=
    List.append_of_mem (List.mem_reverse.mpr (List.mem_finRange p))
  refine List.find?_eq_some_iff_append.mpr ⟨by simpa using hp, as, bs, hsplit, fun q hq => ?_⟩
  rw [hsplit, List.pairwise_append] at hsorted
  have hlt : p < q := hsorted.2.2 q hq p (List.mem_cons_self ..)
  simp [habove q hlt]

end Levels

/-! ## Calls -/

/-- The calls on a ready queue. -/
inductive QueueCall
  | enqueue (tid : ThreadId) (priority : Priority)
  | dequeue

/-- What a call returns. -/
inductive QueueAnswer
  | enqueued (r : Except ScheError Unit)
  | dequeued (tid : Option ThreadId)

namespace QueueCall

/-- A call on the queue; `none` when the `expect` fails or a loop does not end. -/
def onQueue (rq : ReadyQueue) : QueueCall → Option (ReadyQueue × QueueAnswer)
  | .enqueue tid p =>
    match rq.enqueue tid p with
    | .error e => some (rq, .enqueued (.error e))
    | .ok rq => some (rq, .enqueued (.ok ()))
  | .dequeue => rq.dequeue.map fun r => (r.2, .dequeued r.1)

/-- What the call is for: 64 ids have room at a priority, and the oldest id of the highest
priority that has any leaves first. -/
def onLevels (L : Levels) : QueueCall → Levels × QueueAnswer
  | .enqueue tid p =>
    if (L p).length = ringCap then (L, .enqueued (.error .priorityQueueFull))
    else (Function.update L p (L p ++ [tid]), .enqueued (.ok ()))
  | .dequeue =>
    match L.highest with
    | none => (L, .dequeued none)
    | some p => (Function.update L p (L p).tail, .dequeued (L p).head?)

end QueueCall

/-- The state and the answers after some calls. -/
def runQueue : ReadyQueue → List QueueCall → Option (ReadyQueue × List QueueAnswer)
  | rq, [] => some (rq, [])
  | rq, c :: cs => do
    let (rq, a) ← c.onQueue rq
    let (rq, as) ← runQueue rq cs
    return (rq, a :: as)

/-- The same calls on the lists. -/
def runLevels : Levels → List QueueCall → Levels × List QueueAnswer
  | L, [] => (L, [])
  | L, c :: cs =>
    let (L, a) := c.onLevels L
    let (L, as) := runLevels L cs
    (L, a :: as)

/-- The queue shows the lists. -/
structure Agrees (rq : ReadyQueue) (L : Levels) : Prop where
  bit_iff : ∀ p, rq.bit p = true ↔ L p ≠ []
  list : ∀ p, rq.list p = L p
  isEmpty : rq.isEmpty = true ↔ ∀ p, L p = []
  totalRunnable : rq.totalRunnable = ∑ p, (L p).length
  length_le : ∀ p, (L p).length ≤ ringCap

/-! ## One call -/

namespace ReadyQueue

variable {rq : ReadyQueue} {tid : ThreadId} {p : Priority}

theorem Valid.length_le (h : rq.Valid) (p : Priority) : (rq.list p).length ≤ ringCap := by
  rw [rq.length_list h]
  exact (h.filled p).count_le

/-- `enqueue` fails on a full ring only, and `enqueue_ready` then does nothing. -/
theorem enqueue_eq (h : rq.Valid) (tid : ThreadId) (p : Priority) :
    rq.enqueue tid p = if (rq.list p).length = ringCap then .error .priorityQueueFull
      else .ok (rq.enqueueReady tid p) := by
  have hlen := rq.length_list h p
  have hle := h.length_le p
  cases hpush : (rq.queues p).push ringCap tid with
  | none =>
    have hfull := Ring.push_eq_none_iff.mp hpush
    rw [if_pos (by omega)]
    simp only [enqueue, ringPush, hpush]
  | some r =>
    have hroom := (Ring.push_eq_some hpush).1
    rw [if_neg (by omega)]
    simp only [enqueueReady, enqueue, ringPush, hpush]

theorem isEmpty_iff (h : rq.Valid) : rq.isEmpty = true ↔ ∀ p, rq.list p = [] := by
  rw [isEmpty, List.all_eq_true]
  constructor
  · intro hzero p
    apply h.list_eq_nil
    have hp := p.isLt
    have hw : p.val / 64 ∈ [0, 1, 2, 3] := by
      simp only [List.mem_cons, List.not_mem_nil, or_false]
      omega
    rw [bit, beq_iff_eq.mp (hzero _ hw)]
    simp
  · intro hnil w hw
    rw [beq_iff_eq]
    apply BitVec.eq_of_getLsbD_eq
    intro i hi
    have hw4 : w < 4 := by
      simp only [List.mem_cons, List.not_mem_nil, or_false] at hw
      omega
    -- the bit belongs to a priority, whose list is empty
    have hbit := mt (h.bit_iff ⟨w * 64 + i, by omega⟩).mp (not_not.mpr (hnil _))
    rw [Bool.not_eq_true, bit] at hbit
    simp only [show (w * 64 + i) / 64 = w by omega, show (w * 64 + i) % 64 = i by omega] at hbit
    simp [hbit]

theorem Valid.agrees (h : rq.Valid) : Agrees rq rq.list where
  bit_iff := h.bit_iff
  list _ := rfl
  isEmpty := isEmpty_iff h
  totalRunnable := by
    rw [totalRunnable, Fin.sum_univ_def]
    exact congrArg List.sum (List.map_congr_left fun p _ => (rq.length_list h p).symm)
  length_le := h.length_le

/-- **A call answers as the lists do**, and leaves a valid queue that holds what they hold. -/
theorem Valid.call (h : rq.Valid) (c : QueueCall) :
    ∃ rq', c.onQueue rq = some (rq', (c.onLevels rq.list).2) ∧ rq'.Valid ∧
      rq'.list = (c.onLevels rq.list).1 := by
  cases c with
  | enqueue tid p =>
    have henq := enqueue_eq h tid p
    obtain ⟨hvalid, hlists⟩ := enqueueReady_spec h tid p
    have hle := h.length_le p
    unfold QueueCall.onQueue QueueCall.onLevels
    by_cases hfull : (rq.list p).length = ringCap
    · rw [if_pos hfull] at henq
      simp only [henq, if_pos hfull]
      exact ⟨rq, rfl, h, rfl⟩
    · rw [if_neg hfull] at henq
      simp only [henq, if_neg hfull]
      refine ⟨_, rfl, hvalid, funext fun q => ?_⟩
      rw [hlists]
      by_cases hq : q = p
      · subst hq
        rw [if_pos ⟨rfl, by omega⟩, Function.update_self]
      · rw [if_neg (fun hc => hq hc.1), Function.update_of_ne hq]
  | dequeue =>
    unfold QueueCall.onQueue QueueCall.onLevels
    rcases dequeue_spec h with ⟨hnone, hnil⟩ | ⟨p, tid, rest, rq', hsome, hlist, habove, hv, hl⟩
    · rw [Levels.highest_eq_none.mpr hnil, hnone]
      exact ⟨rq, rfl, h, rfl⟩
    · have hp : rq.list p ≠ [] := by simp [hlist]
      rw [Levels.highest_eq_some hp habove, hsome]
      refine ⟨rq', by simp [hlist], hv, funext fun q => ?_⟩
      rw [hl]
      by_cases hq : q = p
      · subst hq
        simp [hlist]
      · simp [hq]

end ReadyQueue

/-! ## Runs -/

theorem runQueue_valid {rq : ReadyQueue} (h : rq.Valid) (calls : List QueueCall) :
    ∃ rq', runQueue rq calls = some (rq', (runLevels rq.list calls).2) ∧ rq'.Valid ∧
      rq'.list = (runLevels rq.list calls).1 := by
  induction calls generalizing rq with
  | nil => exact ⟨rq, rfl, h, rfl⟩
  | cons c calls ih =>
    obtain ⟨rq₁, hcall, hvalid₁, hlist₁⟩ := h.call c
    obtain ⟨rq₂, hrun, hvalid₂, hlist₂⟩ := ih hvalid₁
    rw [hlist₁] at hrun hlist₂
    exact ⟨rq₂, by simp [runQueue, runLevels, hcall, hrun], hvalid₂, hlist₂⟩

/-- **The ready queue is a priority FIFO.**  Every sequence of `enqueue` and `dequeue` calls on a
new queue ends, no `expect` fails, each call answers as it does on the lists, and the queue shows
the lists afterwards. -/
theorem runQueue_agrees (calls : List QueueCall) :
    ∃ rq, runQueue ReadyQueue.new calls = some (rq, (runLevels (fun _ => []) calls).2) ∧
      Agrees rq (runLevels (fun _ => []) calls).1 := by
  obtain ⟨rq, hrun, hvalid, hlist⟩ := runQueue_valid ReadyQueue.valid_new calls
  have hagrees := hvalid.agrees
  rw [hlist] at hagrees
  exact ⟨rq, hrun, hagrees⟩

end QuackOS.Sche
