import QuackOS.Ipc.Channel
import QuackOS.Lib.RingRemoval
import QuackOS.Lib.Run

/-!
# Wait queues with cancellation

`WaitQueue` of `kernel/ipc/channel.rs` is to be a list of at most 32 entries, oldest first, from
which a thread that gives up is taken out.

* `QueueOp.onQueue`, `QueueOp.onList` — the three operations on the ring, and what they are for;
* `BehavesAs` — the ring answers as the list does;
* `behavesAs_iff` — it does so in every state of a run just when no `remove_by_tid` takes the
  oldest entry out of a full queue.

After that the ring has a hole at its head: `pop` returns nothing and the count goes down
(`cancelled_oldest_blocks_pop`).
-/

namespace QuackOS.Ipc

open QuackOS.Sche (ThreadId)

/-- `WaitQueue::is_empty`. -/
def WaitQueue.isEmpty (q : Ring WaitEntry) : Bool := q.count == 0

/-- `WaitQueue::remove_by_tid`. -/
def WaitQueue.removeByTid (q : Ring WaitEntry) (tid : ThreadId) : Ring WaitEntry :=
  q.removeBy waitQueueCap fun e => e.threadId == tid

/-- The operations on a queue. -/
inductive QueueOp
  | push (entry : WaitEntry)
  | pop
  | removeByTid (tid : ThreadId)

namespace QueueOp

/-- What an operation leaves of the ring; a push that fails leaves it alone. -/
def onQueue (q : Ring WaitEntry) : QueueOp → Ring WaitEntry
  | .push entry => (q.push waitQueueCap entry).getD q
  | .pop => (q.pop waitQueueCap).2
  | .removeByTid tid => WaitQueue.removeByTid q tid

/-- What it is to do to the list of waiting threads: the entry of a thread is deleted, and the
others keep their order. -/
def onList (l : List WaitEntry) : QueueOp → List WaitEntry
  | .push entry => if l.length < waitQueueCap then l ++ [entry] else l
  | .pop => l.tail
  | .removeByTid tid => l.eraseP fun e => e.threadId == tid

/-- One operation on both. -/
def step (s : Ring WaitEntry × List WaitEntry) (op : QueueOp) : Ring WaitEntry × List WaitEntry :=
  (op.onQueue s.1, op.onList s.2)

/-- The operation takes the oldest entry out of a full queue. -/
def TakesOldest (q : Ring WaitEntry) : QueueOp → Prop
  | .removeByTid tid => q.count = waitQueueCap ∧
      ∃ e, q.items q.head = some e ∧ e.threadId = tid
  | _ => False

end QueueOp

/-- The ring answers as the list does, whatever is asked next. -/
structure BehavesAs (q : Ring WaitEntry) (l : List WaitEntry) : Prop where
  /-- A push fails just when 32 entries are queued. -/
  push : ∀ entry, q.push waitQueueCap entry = none ↔ l.length = waitQueueCap
  /-- A pop returns the oldest entry. -/
  pop : (q.pop waitQueueCap).1 = l.head?
  count : q.count = l.length
  isEmpty : WaitQueue.isEmpty q = l.isEmpty

/-! ## The invariant -/

/-- The ring is the list. -/
structure Represents (q : Ring WaitEntry) (l : List WaitEntry) : Prop where
  tight : Ring.Tight waitQueueCap q
  toList : q.toList waitQueueCap = l

variable {q : Ring WaitEntry} {l : List WaitEntry} {op : QueueOp}

theorem represents_empty : Represents Ring.empty [] := ⟨Ring.tight_empty (by decide), rfl⟩

theorem Represents.count (h : Represents q l) : q.count = l.length := by
  rw [← h.toList, Ring.length_toList h.tight.toFilled]

theorem Represents.behavesAs (h : Represents q l) : BehavesAs q l where
  push entry := by
    rw [Ring.push_eq_none_iff, h.count]
    have := h.tight.count_le
    rw [h.count] at this
    omega
  pop := by
    have hl := h.toList
    cases l with
    | nil => rw [Ring.pop_nil h.tight.toFilled hl, List.head?_nil]
    | cons e l =>
      obtain ⟨q', hpop, -⟩ := Ring.pop_cons h.tight.toFilled hl
      rw [hpop, List.head?_cons]
  count := h.count
  isEmpty := by
    rw [WaitQueue.isEmpty, h.count]
    cases l <;> rfl

/-- **An operation does to the ring what it is to do to the list**, unless it takes the oldest
entry out of a full queue. -/
theorem Represents.step (h : Represents q l) (hop : ¬ op.TakesOldest q) :
    Represents (op.onQueue q) (op.onList l) := by
  cases op with
  | push entry =>
    simp only [QueueOp.onQueue, QueueOp.onList]
    cases hp : q.push waitQueueCap entry with
    | none =>
      have hfull := (h.behavesAs.push entry).mp hp
      rw [if_neg (by omega)]
      exact h
    | some q' =>
      have hroom := (Ring.push_eq_some hp).1
      rw [if_pos (by rw [← h.count]; exact hroom), Option.getD_some]
      exact ⟨h.tight.push hp, by rw [(Ring.toList_push h.tight.toFilled hp).2, h.toList]⟩
  | pop =>
    refine ⟨h.tight.pop, ?_⟩
    have hl := h.toList
    simp only [QueueOp.onQueue, QueueOp.onList]
    cases l with
    | nil => rw [Ring.pop_nil h.tight.toFilled hl, hl, List.tail_nil]
    | cons e l =>
      obtain ⟨q', hpop, -, -, hrest⟩ := Ring.pop_cons h.tight.toFilled hl
      rw [hpop, List.tail_cons]
      exact hrest
  | removeByTid tid =>
    have hcount := h.tight.count_le
    have hok : q.count < waitQueueCap ∨
        ∀ e, q.items q.head = some e → (e.threadId == tid) = false := by
      by_cases hfull : q.count = waitQueueCap
      · refine Or.inr fun e he => beq_eq_false_iff_ne.mpr fun heq => hop ⟨hfull, e, he, heq⟩
      · exact Or.inl (by omega)
    obtain ⟨htight, hlist⟩ := h.tight.removeBy (by decide) hok
    exact ⟨htight, by rw [← h.toList]; exact hlist⟩

/-- Taking the oldest entry out of a full queue shows at the next pop. -/
theorem Represents.not_behavesAs (h : Represents q l) (hop : op.TakesOldest q) :
    ¬ BehavesAs (op.onQueue q) (op.onList l) := by
  cases op with
  | push entry => exact hop.elim
  | pop => exact hop.elim
  | removeByTid tid =>
    obtain ⟨hfull, e, he, hid⟩ := hop
    obtain ⟨hhole, hcount⟩ := Ring.removeBy_oldest_of_full h.tight hfull (by decide) he
      (p := fun e => e.threadId == tid) (by simpa using hid)
    intro hbehaves
    have hpop := hbehaves.pop
    have hlen := hbehaves.count
    change (WaitQueue.removeByTid q tid).count = _ at hlen
    change ((WaitQueue.removeByTid q tid).pop waitQueueCap).1 = _ at hpop
    have hpos : (WaitQueue.removeByTid q tid).count = 31 := hcount
    rw [Ring.pop, if_neg (by omega)] at hpop
    have hnone : (QueueOp.onList l (.removeByTid tid)).head? = none := hpop.symm.trans hhole
    rw [List.head?_eq_none_iff] at hnone
    rw [hnone, List.length_nil] at hlen
    omega

/-- **The queue is a bounded list with deletion** in every state of a run just when no
`remove_by_tid` of the run takes the oldest entry out of a full queue. -/
theorem behavesAs_iff (ops : List QueueOp) :
    (∀ pre, pre <+: ops → BehavesAs (Run.exec QueueOp.step (Ring.empty, []) pre).1
      (Run.exec QueueOp.step (Ring.empty, []) pre).2) ↔
      Run.Along QueueOp.step (fun s op => ¬ op.TakesOldest s.1) (Ring.empty, []) ops := by
  let State := Ring WaitEntry × List WaitEntry
  refine Run.forall_prefix_iff_along (I := fun s : State => Represents s.1 s.2)
    (J := fun s : State => BehavesAs s.1 s.2) (fun s h => h.behavesAs)
    (fun s op h hop => h.step hop) (fun s op h hop => ?_) represents_empty ops
  exact h.not_behavesAs (not_not.mp hop)

/-- 32 threads wait, and the first of them gives up. -/
def cancelOldest : List QueueOp :=
  (List.range 32).map (fun i => .push { threadId := ⟨i, 0⟩, reason := .receive, msg := none }) ++
    [.removeByTid ⟨0, 0⟩]

set_option maxRecDepth 4000

/-- **31 threads wait, and there is nothing to pop.** -/
theorem cancelled_oldest_blocks_pop :
    ((Run.exec QueueOp.step (Ring.empty, []) cancelOldest).1.pop waitQueueCap).1.isNone = true ∧
      (Run.exec QueueOp.step (Ring.empty, []) cancelOldest).2.length = 31 ∧
      ¬ ∀ pre, pre <+: cancelOldest → BehavesAs (Run.exec QueueOp.step (Ring.empty, []) pre).1
        (Run.exec QueueOp.step (Ring.empty, []) pre).2 := by
  have hpop : ((Run.exec QueueOp.step (Ring.empty, []) cancelOldest).1.pop
      waitQueueCap).1.isNone = true := by decide +kernel
  have hlen : (Run.exec QueueOp.step (Ring.empty, []) cancelOldest).2.length = 31 := by
    decide +kernel
  refine ⟨hpop, hlen, fun hall => ?_⟩
  have h := (hall cancelOldest (List.prefix_refl _)).pop
  rw [Option.isNone_iff_eq_none.mp hpop, eq_comm, List.head?_eq_none_iff] at h
  rw [h] at hlen
  cases hlen

end QuackOS.Ipc
