import Mathlib.Algebra.BigOperators.Group.Finset.Piecewise
import Mathlib.Algebra.Order.Group.Multiset
import QuackOS.Lib.RingHoles
import QuackOS.Lib.Run
import QuackOS.Sche.Queue

/-!
# Removing from the ready queue

`RingBuffer::remove` empties a slot and lowers the count, but leaves `head` and `tail` where they
are.  The slots from `head` to `tail` then are more than the count says, and a push that goes by
the count may find its slot still in use.

* `ReadyCall.run` — the three calls, beside the ids that wait: accepted, and neither removed nor
  returned since;
* `Safe` — the rings hold the waiting ids, and dequeuing returns each of them once;
* `removal_safe_iff` — **every state of a run is safe just when each `enqueue` that finds fewer than 64
  entries at its priority finds the slot at the tail empty**.

That slot was filled by the 64th last `enqueue` at the priority, so it is in use as long as that
id waits.
-/

namespace QuackOS.Sche

/-! ## Ids in the rings -/

namespace ReadyQueue

/-- The ids in the ring of a priority. -/
def bag (rq : ReadyQueue) (p : Priority) : Multiset ThreadId :=
  Ring.bag ringCap (rq.queues p).items

/-- The ids in all rings. -/
def ids (rq : ReadyQueue) : Multiset ThreadId := ∑ p, rq.bag p

/-- `dequeue` until it returns `None`, at most so many times; `none` when a call does not
return. -/
def drain : Nat → ReadyQueue → Option (List ThreadId × ReadyQueue)
  | 0, _ => none
  | n + 1, rq =>
    match rq.dequeue with
    | none => none
    | some (none, rq) => some ([], rq)
    | some (some tid, rq) => (drain n rq).map fun r => (tid :: r.1, r.2)

/-- Each count is the number of ids in its ring, and the bitmap marks the counts that are not
zero. -/
structure Sound (rq : ReadyQueue) : Prop where
  sparse : ∀ p : Priority, (rq.queues p).Sparse ringCap
  bit_iff : ∀ p : Priority, rq.bit p = true ↔ (rq.queues p).count ≠ 0

variable {rq : ReadyQueue} {p : Priority} {tid : ThreadId} {r : Ring ThreadId}

theorem sound_new : new.Sound where
  sparse _ := Ring.sparse_empty (by decide)
  bit_iff p := by simp [bit, new, Ring.empty]

theorem ids_new : new.ids = 0 := Finset.sum_eq_zero fun _ _ => Ring.bag_empty

/-- One ring changes, and the ids of the others stay. -/
theorem ids_update (rq : ReadyQueue) (p : Priority) (r : Ring ThreadId) (bm : Nat → BitVec 64) :
    ∃ others, rq.ids = rq.bag p + others ∧
      ids { bitmap := bm, queues := Function.update rq.queues p r } =
        Ring.bag ringCap r.items + others := by
  have hbag : ∀ q : Priority,
      bag { bitmap := bm, queues := Function.update rq.queues p r } q =
        Function.update rq.bag p (Ring.bag ringCap r.items) q := by
    intro q
    simp only [bag, Function.update_apply, ← Fin.ext_iff]
    split <;> rfl
  refine ⟨∑ q ∈ Finset.univ \ {p}, rq.bag q, ?_, ?_⟩
  · exact Finset.sum_eq_add_sum_sdiff_singleton_of_mem (Finset.mem_univ p) rq.bag
  · rw [ids, Finset.sum_congr rfl fun q _ => hbag q]
    exact Finset.sum_update_of_mem (Finset.mem_univ p) rq.bag _

theorem queues_update (q : Priority) (bm : Nat → BitVec 64) :
    ({ bitmap := bm, queues := Function.update rq.queues p r } : ReadyQueue).queues q =
      if q = p then r else rq.queues q := by
  simp only [Function.update_apply, ← Fin.ext_iff]

/-! ## The three calls -/

/-- `enqueue` fails just when the count is 64. -/
theorem enqueue_cases (h : rq.Sound) (tid : ThreadId) (p : Priority) :
    ((rq.queues p).count = ringCap ∧ rq.enqueue tid p = .error .priorityQueueFull) ∨
      ∃ r, (rq.queues p).push ringCap tid = some r ∧ (rq.queues p).count < ringCap ∧
        rq.enqueue tid p = .ok {
          bitmap := Function.update rq.bitmap (p / 64)
            (rq.bitmap (p / 64) ||| (1#64 <<< (p.val % 64)))
          queues := Function.update rq.queues p r } := by
  cases hpush : (rq.queues p).push ringCap tid with
  | none =>
    have hfull := Ring.push_eq_none_iff.mp hpush
    have hle := (h.sparse p).count_le
    exact Or.inl ⟨by omega, by simp only [enqueue, ringPush, hpush]⟩
  | some r =>
    exact Or.inr ⟨r, rfl, (Ring.push_eq_some hpush).1, by simp only [enqueue, ringPush, hpush]⟩

/-- The state after a push into an empty slot. -/
theorem Sound.pushed (h : rq.Sound) (hpush : (rq.queues p).push ringCap tid = some r)
    (hfree : (rq.queues p).items (rq.queues p).tail = none) :
    Sound {
      bitmap := Function.update rq.bitmap (p / 64) (rq.bitmap (p / 64) ||| (1#64 <<< (p.val % 64)))
      queues := Function.update rq.queues p r } := by
  refine ⟨fun q => ?_, fun q => ?_⟩
  · rw [queues_update]
    split
    · exact (h.sparse p).push hpush hfree
    · exact h.sparse q
  · rw [queues_update, bit_set]
    by_cases hq : q = p
    · obtain ⟨-, rfl⟩ := Ring.push_eq_some hpush
      simp [hq]
    · simpa [hq] using h.bit_iff q

/-- The state after an id was taken out of a ring. -/
theorem Sound.taken (h : rq.Sound) (hr : r.Sparse ringCap) (hp : rq.bit p = true) :
    Sound {
      bitmap :=
        if r.count = 0 then
          Function.update rq.bitmap (p / 64) (rq.bitmap (p / 64) &&& ~~~(1#64 <<< (p.val % 64)))
        else rq.bitmap
      queues := Function.update rq.queues p r } := by
  refine ⟨fun q => ?_, fun q => ?_⟩
  · rw [queues_update]
    split
    · exact hr
    · exact h.sparse q
  · rw [queues_update]
    by_cases hcount : r.count = 0
    · rw [if_pos hcount, bit_clear]
      by_cases hq : q = p
      · simp [hq, hcount]
      · simpa [hq] using h.bit_iff q
    · rw [if_neg hcount]
      by_cases hq : q = p
      · subst hq
        exact iff_of_true hp (by rwa [if_pos rfl])
      · rw [if_neg hq]
        exact h.bit_iff q

/-- The loop of `pop` skips the holes in front of the first id. -/
theorem ringPopLoop_skips {d fuel : Nat} {head : Nat} (hd : d < fuel) (hhead : head < ringCap)
    (hcount : r.count ≠ 0) (hid : r.items ((head + d) % ringCap) = some tid)
    (hholes : ∀ k < d, r.items ((head + k) % ringCap) = none) :
    ringPopLoop fuel { r with head := head } = some (some tid, { r with
      items := Function.update r.items ((head + d) % ringCap) none
      head := ((head + d) % ringCap + 1) % ringCap
      count := r.count - 1 }) := by
  induction d generalizing fuel head with
  | zero =>
    obtain ⟨fuel, rfl⟩ := Nat.exists_eq_succ_of_ne_zero (Nat.ne_of_gt hd)
    rw [Nat.add_zero, Nat.mod_eq_of_lt hhead] at hid ⊢
    simp only [ringPopLoop, if_neg hcount, hid, Ring.take]
  | succ d ih =>
    obtain ⟨fuel, rfl⟩ := Nat.exists_eq_succ_of_ne_zero (show fuel ≠ 0 by omega)
    have hshift : ∀ k, ((head + 1) % ringCap + k) % ringCap = (head + (k + 1)) % ringCap := by
      intro k
      rw [Nat.mod_add_mod, Nat.add_assoc, Nat.add_comm 1 k]
    have hhole : r.items head = none := by
      have := hholes 0 (by omega)
      rwa [Nat.add_zero, Nat.mod_eq_of_lt hhead] at this
    have hrest := @ih fuel _ (by omega) (Nat.mod_lt (head + 1) (by decide))
      (by rw [hshift]; exact hid) (fun k hk => by rw [hshift]; exact hholes (k + 1) (by omega))
    rw [hshift] at hrest
    simp only [ringPopLoop, if_neg hcount, hhole]
    exact hrest

/-- **`pop` ends** and takes an id out of its slot, when the count is right. -/
theorem ringPop_sparse (hr : r.Sparse ringCap) (hcount : r.count ≠ 0) :
    ∃ tid r', ringPop r = some (some tid, r') ∧ r'.Sparse ringCap ∧
      Ring.bag ringCap r.items = tid ::ₘ Ring.bag ringCap r'.items := by
  obtain ⟨d, hd, tid, hid, hholes⟩ := hr.exists_next hcount
  have hlt : (r.head + d) % ringCap < ringCap := Nat.mod_lt _ (by decide)
  refine ⟨tid, _, ringPopLoop_skips (by omega) hr.head_lt hcount hid hholes, ?_, ?_⟩
  · exact hr.takeAt hlt hid (Nat.mod_lt _ (by decide))
  · exact Ring.bag_of_some hlt hid

/-- **`dequeue` returns**, with an id as long as there is one. -/
theorem Sound.dequeue (h : rq.Sound) : (rq.dequeue = some (none, rq) ∧ rq.ids = 0) ∨
    ∃ tid rq', rq.dequeue = some (some tid, rq') ∧ rq'.Sound ∧ rq.ids = tid ::ₘ rq'.ids := by
  unfold ReadyQueue.dequeue
  cases hfind : [3, 2, 1, 0].find? fun w => rq.bitmap w != 0#64 with
  | none =>
    refine Or.inl ⟨rfl, Finset.sum_eq_zero fun p _ => ?_⟩
    have hcount := mt (h.bit_iff p).mpr (Bool.eq_false_iff.mp (no_bit hfind p))
    rw [not_not, (h.sparse p).count_eq, Multiset.card_eq_zero] at hcount
    exact hcount
  | some wi =>
    obtain ⟨p, hp, hpw, hpb, hset, -⟩ := highest_bit hfind
    obtain ⟨tid, r, hpop, hr, hbag⟩ := ringPop_sparse (h.sparse p) ((h.bit_iff p).mp hset)
    have hsound := h.taken hr hset
    rw [hpw, hpb] at hsound
    refine Or.inr ⟨tid, _, ?_, hsound, ?_⟩
    · simp only [← hp, hpop]
    · obtain ⟨others, hids, hids'⟩ := rq.ids_update p r _
      rw [hids, hids', bag, hbag, Multiset.cons_add]

/-- **`remove`** takes the id out of its ring if it is there. -/
theorem Sound.remove (h : rq.Sound) (tid : ThreadId) (p : Priority) :
    (rq.remove tid p = (false, rq) ∧ tid ∉ rq.bag p) ∨
      ∃ rq', rq.remove tid p = (true, rq') ∧ rq'.Sound ∧ rq.ids = tid ::ₘ rq'.ids := by
  unfold ReadyQueue.remove ringRemove
  cases hfind : (List.range ringCap).find? fun i => (rq.queues p).items i == some tid with
  | none =>
    refine Or.inl ⟨by simp only [hfind], fun hmem => ?_⟩
    obtain ⟨i, hi, hid⟩ := Ring.mem_bag.mp hmem
    have := List.find?_eq_none.mp hfind i (List.mem_range.mpr hi)
    rw [hid, beq_self_eq_true] at this
    exact this rfl
  | some i =>
    have hi : i < ringCap := List.mem_range.mp (List.mem_of_find?_eq_some hfind)
    have hid : (rq.queues p).items i = some tid :=
      beq_iff_eq.mp (List.find?_some (p := fun i => (rq.queues p).items i == some tid) hfind)
    have hbit : rq.bit p = true := by
      rw [h.bit_iff, (h.sparse p).count_eq, Ring.bag_of_some hi hid, Multiset.card_cons]
      exact Nat.succ_ne_zero _
    refine Or.inr ⟨_, by simp only [hfind],
      h.taken ((h.sparse p).takeAt hi hid (h.sparse p).head_lt) hbit, ?_⟩
    obtain ⟨others, hids, hids'⟩ := rq.ids_update p { rq.queues p with
      items := Function.update (rq.queues p).items i none, count := (rq.queues p).count - 1 } _
    rw [hids, hids', bag, Ring.bag_of_some hi hid, Multiset.cons_add]

/-- Dequeuing until `None` returns every id once. -/
theorem Sound.drain (h : rq.Sound) {n : Nat} (hn : rq.ids.card = n) :
    ∃ tids rq', rq.drain (n + 1) = some (tids, rq') ∧ (tids : Multiset ThreadId) = rq.ids := by
  induction n generalizing rq with
  | zero =>
    rcases h.dequeue with ⟨hd, hids⟩ | ⟨tid, rq', -, -, hids⟩
    · exact ⟨[], rq, by simp only [ReadyQueue.drain, hd], hids.symm⟩
    · rw [hids, Multiset.card_cons] at hn
      omega
  | succ n ih =>
    rcases h.dequeue with ⟨-, hids⟩ | ⟨tid, rq', hd, hsound, hids⟩
    · rw [hids, Multiset.card_zero] at hn
      omega
    · rw [hids, Multiset.card_cons] at hn
      obtain ⟨tids, rq'', hdrain, htids⟩ := ih hsound (by omega)
      refine ⟨tid :: tids, rq'', ?_, ?_⟩
      · rw [ReadyQueue.drain, hd]
        simp only [hdrain, Option.map_some]
      · rw [hids, ← htids]
        rfl

end ReadyQueue

/-! ## Runs -/

/-- The calls on a ready queue, with `remove`. -/
inductive ReadyCall
  | enqueue (tid : ThreadId) (priority : Priority)
  | dequeue
  | remove (tid : ThreadId) (priority : Priority)

namespace ReadyCall

/-- One call on the queue.  The second component has the ids that wait: those that `enqueue`
accepted and that were neither removed nor returned since. -/
def run (s : ReadyQueue × Multiset ThreadId) : ReadyCall → Option (ReadyQueue × Multiset ThreadId)
  | .enqueue tid p =>
    match s.1.enqueue tid p with
    | .error _ => some s
    | .ok rq => some (rq, tid ::ₘ s.2)
  | .dequeue => s.1.dequeue.map fun r => (r.2, r.1.elim s.2 s.2.erase)
  | .remove tid p =>
    let r := s.1.remove tid p
    some (r.2, if r.1 then s.2.erase tid else s.2)

/-- One call of a run; a call that does not return ends it. -/
def step (s : Option (ReadyQueue × Multiset ThreadId)) (c : ReadyCall) :
    Option (ReadyQueue × Multiset ThreadId) := s.bind c.run

/-- An `enqueue` that finds room by the count finds the slot at the tail empty. -/
def TailFree (rq : ReadyQueue) : ReadyCall → Prop
  | .enqueue _ p => (rq.queues p).count < ringCap →
      (rq.queues p).items (rq.queues p).tail = none
  | _ => True

/-- The condition of a call in a run. -/
def Fits (s : Option (ReadyQueue × Multiset ThreadId)) (c : ReadyCall) : Prop :=
  ∀ rq waiting, s = some (rq, waiting) → c.TailFree rq

end ReadyCall

/-- The queue has the ids that wait. -/
structure Safe (s : Option (ReadyQueue × Multiset ThreadId)) : Prop where
  /-- No call panicked or looped. -/
  returned : s.isSome
  /-- No id that waits was overwritten. -/
  kept : ∀ rq waiting, s = some (rq, waiting) → rq.ids = waiting
  /-- `enqueue` fails just when 64 ids are in the ring. -/
  full : ∀ rq waiting, s = some (rq, waiting) → ∀ tid p,
    (∃ e, rq.enqueue tid p = .error e) ↔ (rq.bag p).card = ringCap
  /-- `dequeue` returns. -/
  dequeues : ∀ rq waiting, s = some (rq, waiting) → rq.dequeue.isSome
  /-- Each id that waits is returned by one of the next calls of `dequeue`. -/
  drains : ∀ rq waiting, s = some (rq, waiting) →
    ∃ tids rq', rq.drain (waiting.card + 1) = some (tids, rq') ∧ (tids : Multiset ThreadId) = waiting

/-- The invariant of a safe run. -/
def Kept (s : Option (ReadyQueue × Multiset ThreadId)) : Prop :=
  ∃ rq, s = some (rq, rq.ids) ∧ rq.Sound

theorem Kept.safe {s : Option (ReadyQueue × Multiset ThreadId)} (h : Kept s) : Safe s := by
  obtain ⟨rq, rfl, hsound⟩ := h
  refine ⟨rfl, ?_, ?_, ?_, ?_⟩
  · rintro rq waiting ⟨⟩
    rfl
  · rintro rq waiting ⟨⟩ tid p
    rw [ReadyQueue.bag, ← (hsound.sparse p).count_eq]
    rcases ReadyQueue.enqueue_cases hsound tid p with ⟨hfull, he⟩ | ⟨r, -, hroom, hok⟩
    · exact iff_of_true ⟨_, he⟩ hfull
    · refine iff_of_false ?_ (Nat.ne_of_lt hroom)
      rintro ⟨e, he⟩
      rw [hok] at he
      cases he
  · rintro rq waiting ⟨⟩
    rcases hsound.dequeue with ⟨hd, -⟩ | ⟨tid, rq', hd, -⟩
    · rw [hd]
      rfl
    · rw [hd]
      rfl
  · rintro rq waiting ⟨⟩
    exact hsound.drain rfl

/-- **A call that fits keeps the ids.** -/
theorem Kept.step {s : Option (ReadyQueue × Multiset ThreadId)} {c : ReadyCall} (h : Kept s)
    (hc : c.Fits s) : Kept (ReadyCall.step s c) := by
  obtain ⟨rq, rfl, hsound⟩ := h
  have hfree := hc rq _ rfl
  unfold Kept
  cases c with
  | enqueue tid p =>
    simp only [ReadyCall.step, Option.bind_some, ReadyCall.run]
    rcases ReadyQueue.enqueue_cases hsound tid p with ⟨-, he⟩ | ⟨r, hpush, hroom, hok⟩
    · rw [he]
      exact ⟨rq, rfl, hsound⟩
    · have hbag := ((hsound.sparse p).push_iff hpush).mpr (hfree hroom)
      obtain ⟨others, hids, hids'⟩ := rq.ids_update p r (Function.update rq.bitmap (p / 64)
        (rq.bitmap (p / 64) ||| (1#64 <<< (p.val % 64))))
      rw [hok]
      refine ⟨_, ?_, hsound.pushed hpush (hfree hroom)⟩
      simp only
      rw [hids', hbag, hids, ReadyQueue.bag, Multiset.cons_add]
  | dequeue =>
    simp only [ReadyCall.step, Option.bind_some, ReadyCall.run]
    rcases hsound.dequeue with ⟨hd, -⟩ | ⟨tid, rq', hd, hsound', hids⟩
    · rw [hd]
      exact ⟨rq, rfl, hsound⟩
    · rw [hd, hids]
      exact ⟨rq', by simp, hsound'⟩
  | remove tid p =>
    simp only [ReadyCall.step, Option.bind_some, ReadyCall.run]
    rcases hsound.remove tid p with ⟨hr, -⟩ | ⟨rq', hr, hsound', hids⟩
    · rw [hr]
      exact ⟨rq, rfl, hsound⟩
    · rw [hr, hids]
      exact ⟨rq', by simp, hsound'⟩

/-- **An enqueue into a slot in use loses an id.** -/
theorem Kept.not_safe {s : Option (ReadyQueue × Multiset ThreadId)} {c : ReadyCall} (h : Kept s)
    (hc : ¬ c.Fits s) : ¬ Safe (ReadyCall.step s c) := by
  obtain ⟨rq, rfl, hsound⟩ := h
  have hused : ¬ c.TailFree rq := by
    intro hfree
    refine hc ?_
    rintro rq waiting ⟨⟩
    exact hfree
  cases c with
  | dequeue => exact absurd trivial hused
  | remove tid p => exact absurd trivial hused
  | enqueue tid p =>
    obtain ⟨hroom, hslot⟩ := Classical.not_imp.mp hused
    rcases ReadyQueue.enqueue_cases hsound tid p with ⟨hfull, -⟩ | ⟨r, hpush, -, hok⟩
    · omega
    · intro hsafe
      obtain ⟨others, hold, hnew⟩ := rq.ids_update p r (Function.update rq.bitmap (p / 64)
        (rq.bitmap (p / 64) ||| (1#64 <<< (p.val % 64))))
      have hids := hsafe.kept _ (tid ::ₘ rq.ids) (by
        simp only [ReadyCall.step, Option.bind_some, ReadyCall.run, hok]
        rfl)
      rw [hnew, hold, ← Multiset.cons_add] at hids
      exact hslot (((hsound.sparse p).push_iff hpush).mp (add_right_cancel hids))

/-- **Removal is safe just when no enqueue meets a slot in use.**  In every state of a run of
`enqueue`, `dequeue` and `remove` on a new queue the rings hold the ids that wait and dequeuing
returns each of them once, if and only if every `enqueue` of the run that finds fewer than 64
entries at its priority finds the slot at the tail empty. -/
theorem removal_safe_iff (calls : List ReadyCall) :
    (∀ pre, pre <+: calls → Safe (Run.exec ReadyCall.step (some (ReadyQueue.new, 0)) pre)) ↔
      Run.Along ReadyCall.step ReadyCall.Fits (some (ReadyQueue.new, 0)) calls :=
  Run.forall_prefix_iff_along (I := Kept) (fun _ h => h.safe) (fun _ _ h hc => h.step hc)
    (fun _ _ h hc => h.not_safe hc)
    ⟨ReadyQueue.new, by rw [ReadyQueue.ids_new], ReadyQueue.sound_new⟩ calls

/-- 64 threads are queued, the second of them is removed, and another is queued. -/
def removeSecond : List ReadyCall :=
  (List.range 64).map (fun i => .enqueue ⟨i, 1⟩ 0) ++ [.remove ⟨1, 1⟩ 0, .enqueue ⟨64, 1⟩ 0]

set_option maxRecDepth 8000

/-- **The new thread overwrites the oldest one**, and the last `dequeue` does not return. -/
theorem removed_hole_overwrites :
    ∃ rq waiting, Run.exec ReadyCall.step (some (ReadyQueue.new, 0)) removeSecond =
        some (rq, waiting) ∧ waiting.card = 64 ∧ ⟨0, 1⟩ ∈ waiting ∧
      rq.drain 65 = none ∧
      ¬ ∀ pre, pre <+: removeSecond →
        Safe (Run.exec ReadyCall.step (some (ReadyQueue.new, 0)) pre) := by
  have hrun : (Run.exec ReadyCall.step (some (ReadyQueue.new, 0)) removeSecond).any (fun s =>
      decide (s.2.card = 64) && decide (⟨0, 1⟩ ∈ s.2) && (s.1.drain 65).isNone) = true := by
    decide +kernel
  obtain ⟨⟨rq, waiting⟩, hs, hprop⟩ := (Option.any_eq_true _ _).mp hrun
  simp only [Bool.and_eq_true, decide_eq_true_eq, Option.isNone_iff_eq_none] at hprop
  obtain ⟨⟨hcard, hmem⟩, hdrain⟩ := hprop
  refine ⟨rq, waiting, hs, hcard, hmem, hdrain, fun hall => ?_⟩
  obtain ⟨tids, rq', hd, -⟩ := (hall removeSecond (List.prefix_refl _)).drains rq waiting hs
  rw [hcard, hdrain] at hd
  cases hd

end QuackOS.Sche
