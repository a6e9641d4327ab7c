import QuackOS.Lib.Ring
import QuackOS.Sche.Thread

/-!
# The ready queue

The model of `kernel/sche/queue.rs`: one ring of 64 thread ids for each of the 256 priorities,
and a 256-bit map of the priorities whose ring is not empty.

A `Valid` queue is, to its users, the function `list` from priorities to lists of ids:
`enqueueReady_spec` and `dequeueReady_spec` say what the two operations do to it.
-/

namespace QuackOS.Sche

/-- Capacity of each per-priority ring buffer. -/
def ringCap : Nat := 64

/-- `ScheError`, as far as the queue returns it. -/
inductive ScheError
  | priorityQueueFull
  deriving DecidableEq, Repr

/-- `RingBuffer::push`. -/
def ringPush (r : Ring ThreadId) (tid : ThreadId) : Except ScheError (Ring ThreadId) :=
  match r.push ringCap tid with
  | none => .error .priorityQueueFull
  | some r => .ok r

/-- The `while` loop of `RingBuffer::pop`.  An empty slot is skipped without touching `count`,
so a ring whose count exceeds its items is scanned for ever: `none`. -/
def ringPopLoop : Nat → Ring ThreadId → Option (Option ThreadId × Ring ThreadId)
  | 0, _ => none
  | fuel + 1, r =>
      if r.count = 0 then some (none, r)
      else
        match r.items r.head with
        | some tid => some (some tid, (r.take ringCap).2)
        | none => ringPopLoop fuel { r with head := (r.head + 1) % ringCap }

/-- `RingBuffer::pop`: after one round without an item no later round finds one. -/
def ringPop (r : Ring ThreadId) : Option (Option ThreadId × Ring ThreadId) :=
  ringPopLoop (ringCap + 1) r

/-- `RingBuffer::remove`: the first slot of the array that holds the id is emptied.  Neither
`head` nor `tail` moves. -/
def ringRemove (r : Ring ThreadId) (tid : ThreadId) : Bool × Ring ThreadId :=
  match (List.range ringCap).find? fun i => r.items i == some tid with
  | none => (false, r)
  | some i => (true, { r with items := Function.update r.items i none, count := r.count - 1 })

/-- `ReadyQueue`: word `w` bit `b` of the bitmap stands for priority `w * 64 + b`. -/
structure ReadyQueue where
  bitmap : Nat → BitVec 64
  queues : Nat → Ring ThreadId

namespace ReadyQueue

/-- `ReadyQueue::new`. -/
def new : ReadyQueue := { bitmap := fun _ => 0, queues := fun _ => Ring.empty }

/-- `enqueue`. -/
def enqueue (rq : ReadyQueue) (tid : ThreadId) (priority : Priority) :
    Except ScheError ReadyQueue :=
  let p := priority.val
  match ringPush (rq.queues p) tid with
  | .error e => .error e
  | .ok r => .ok
      { bitmap := Function.update rq.bitmap (p / 64) (rq.bitmap (p / 64) ||| (1#64 <<< (p % 64)))
        queues := Function.update rq.queues p r }

/-- `dequeue`: the highest set bit of the highest non-zero word (`63 - leading_zeros` is
`log2`).  The outer `none` is the failing `expect`, or the loop that never ends. -/
def dequeue (rq : ReadyQueue) : Option (Option ThreadId × ReadyQueue) :=
  match [3, 2, 1, 0].find? fun w => rq.bitmap w != 0#64 with
  | none => some (none, rq)
  | some wi =>
      let bit := (rq.bitmap wi).toNat.log2
      let p := wi * 64 + bit
      match ringPop (rq.queues p) with
      | none => none
      | some (none, _) => none
      | some (some tid, r) =>
          let bitmap :=
            if r.count = 0 then
              Function.update rq.bitmap wi (rq.bitmap wi &&& ~~~(1#64 <<< bit))
            else rq.bitmap
          some (some tid, { bitmap, queues := Function.update rq.queues p r })

/-- `remove`. -/
def remove (rq : ReadyQueue) (tid : ThreadId) (priority : Priority) : Bool × ReadyQueue :=
  let p := priority.val
  match ringRemove (rq.queues p) tid with
  | (false, _) => (false, rq)
  | (true, r) =>
      let bitmap :=
        if r.count = 0 then
          Function.update rq.bitmap (p / 64) (rq.bitmap (p / 64) &&& ~~~(1#64 <<< (p % 64)))
        else rq.bitmap
      (true, { bitmap, queues := Function.update rq.queues p r })

/-- `is_empty`. -/
def isEmpty (rq : ReadyQueue) : Bool := [0, 1, 2, 3].all fun w => rq.bitmap w == 0#64

/-- `total_runnable`. -/
def totalRunnable (rq : ReadyQueue) : Nat :=
  ((List.finRange 256).map fun p : Priority => (rq.queues p).count).sum

/-- `enqueue_ready`, whose callers ignore the error. -/
def enqueueReady (rq : ReadyQueue) (tid : ThreadId) (priority : Priority) : ReadyQueue :=
  match rq.enqueue tid priority with
  | .error _ => rq
  | .ok rq => rq

/-- `dequeue_ready`.  The failing branch is never taken on a valid queue
(`dequeueReady_spec`). -/
def dequeueReady (rq : ReadyQueue) : Option ThreadId × ReadyQueue :=
  rq.dequeue.getD (none, rq)

/-! ## The list view -/

/-- The ids queued at a priority, oldest first. -/
def list (rq : ReadyQueue) (p : Priority) : List ThreadId := (rq.queues p).toList ringCap

/-- The bitmap's bit for a priority. -/
def bit (rq : ReadyQueue) (p : Priority) : Bool := (rq.bitmap (p / 64)).getLsbD (p % 64)

/-- No ring has a hole, and the bitmap marks the non-empty ones. -/
structure Valid (rq : ReadyQueue) : Prop where
  filled : ∀ p : Priority, (rq.queues p).Filled ringCap
  bit_iff : ∀ p : Priority, rq.bit p = true ↔ rq.list p ≠ []

theorem valid_new : new.Valid where
  filled _ := Ring.filled_empty (by decide)
  bit_iff p := by simp [bit, new, list]

@[simp] theorem list_new (p : Priority) : new.list p = [] := rfl

theorem length_list (rq : ReadyQueue) (h : rq.Valid) (p : Priority) :
    (rq.list p).length = (rq.queues p).count := Ring.length_toList (h.filled p)

theorem getLsbD_setBit (w : BitVec 64) {b k : Nat} (hk : k < 64) :
    (w ||| (1#64 <<< b)).getLsbD k = (w.getLsbD k || decide (k = b)) := by
  rw [BitVec.getLsbD_or, BitVec.getLsbD_shiftLeft, BitVec.getLsbD_one]
  by_cases hkb : k = b
  · simp [hkb, show b < 64 by omega]
  · by_cases hlt : k < b
    · simp [hkb, hlt]
    · simp [hkb, show ¬ k - b = 0 by omega]

theorem getLsbD_clearBit (w : BitVec 64) {b k : Nat} (hk : k < 64) :
    (w &&& ~~~(1#64 <<< b)).getLsbD k = (w.getLsbD k && decide (k ≠ b)) := by
  rw [BitVec.getLsbD_and, BitVec.getLsbD_not, BitVec.getLsbD_shiftLeft, BitVec.getLsbD_one]
  by_cases hkb : k = b
  · simp [hkb, show b < 64 by omega]
  · by_cases hlt : k < b
    · simp [hkb, hlt, hk]
    · simp [hkb, hk, show ¬ k - b = 0 by omega]

/-- Word and bit determine the priority. -/
theorem priority_ext {p q : Priority} (h1 : p.val / 64 = q.val / 64)
    (h2 : p.val % 64 = q.val % 64) : p = q := Fin.ext (by omega)

/-- Changing one word of the bitmap changes the bits of its priorities. -/
theorem bit_update (rq : ReadyQueue) (wi : Nat) (w : BitVec 64) (qs : Nat → Ring ThreadId)
    (q : Priority) :
    ({ bitmap := Function.update rq.bitmap wi w, queues := qs } : ReadyQueue).bit q =
      if q.val / 64 = wi then w.getLsbD (q.val % 64) else rq.bit q := by
  unfold bit
  simp only [Function.update_apply]
  split <;> rfl

/-- Setting the bit of one priority. -/
theorem bit_set (rq : ReadyQueue) (p q : Priority) (qs : Nat → Ring ThreadId) :
    ({ bitmap := Function.update rq.bitmap (p / 64)
        (rq.bitmap (p / 64) ||| (1#64 <<< (p.val % 64))), queues := qs } : ReadyQueue).bit q =
      (rq.bit q || decide (q = p)) := by
  rw [bit_update]
  split
  case isTrue hw =>
    rw [getLsbD_setBit _ (Nat.mod_lt _ (by decide)), bit, hw]
    by_cases hqp : q = p
    · simp [hqp]
    · have hmod : q.val % 64 ≠ p.val % 64 := fun hm => hqp (priority_ext hw hm)
      simp [hqp, hmod]
  case isFalse hw =>
    have hqp : q ≠ p := by
      rintro rfl
      exact hw rfl
    simp [hqp]

/-- Clearing the bit of one priority. -/
theorem bit_clear (rq : ReadyQueue) (p q : Priority) (qs : Nat → Ring ThreadId) :
    ({ bitmap := Function.update rq.bitmap (p / 64)
        (rq.bitmap (p / 64) &&& ~~~(1#64 <<< (p.val % 64))), queues := qs } : ReadyQueue).bit q =
      (rq.bit q && decide (q ≠ p)) := by
  rw [bit_update]
  split
  case isTrue hw =>
    rw [getLsbD_clearBit _ (Nat.mod_lt _ (by decide)), bit, hw]
    by_cases hqp : q = p
    · simp [hqp]
    · have hmod : q.val % 64 ≠ p.val % 64 := fun hm => hqp (priority_ext hw hm)
      simp [hqp, hmod]
  case isFalse hw =>
    have hqp : q ≠ p := by
      rintro rfl
      exact hw rfl
    simp [hqp]

/-- The rings after one of them changed. -/
theorem list_update (rq : ReadyQueue) (p : Priority) (r : Ring ThreadId)
    (bm : Nat → BitVec 64) (q : Priority) :
    ({ bitmap := bm, queues := Function.update rq.queues p r } : ReadyQueue).list q =
      if q = p then r.toList ringCap else rq.list q := by
  unfold list
  simp only [Function.update_apply, ← Fin.ext_iff]
  split <;> rfl

/-- **Enqueueing** appends the id at its priority, unless 64 ids are queued there. -/
theorem enqueueReady_spec {rq : ReadyQueue} (h : rq.Valid) (tid : ThreadId) (p : Priority) :
    (rq.enqueueReady tid p).Valid ∧ ∀ q, (rq.enqueueReady tid p).list q =
      if q = p ∧ (rq.list p).length < ringCap then rq.list p ++ [tid] else rq.list q := by
  have hlen := rq.length_list h p
  cases hpush : (rq.queues p).push ringCap tid with
  | none =>
    have hfull := Ring.push_eq_none_iff.mp hpush
    have heq : rq.enqueueReady tid p = rq := by
      simp only [enqueueReady, enqueue, ringPush, hpush]
    rw [heq]
    refine ⟨h, fun q => ?_⟩
    rw [if_neg (by omega)]
  | some r =>
    obtain ⟨hroom, -⟩ := Ring.push_eq_some hpush
    obtain ⟨hfill, hlist⟩ := Ring.toList_push (h.filled p) hpush
    set bm := Function.update rq.bitmap (p / 64) (rq.bitmap (p / 64) ||| 1#64 <<< (p.val % 64))
    have heq : rq.enqueueReady tid p =
        { bitmap := bm, queues := Function.update rq.queues p r } := by
      simp only [enqueueReady, enqueue, ringPush, hpush, bm]
    have hlists : ∀ q, (rq.enqueueReady tid p).list q =
        if q = p then rq.list p ++ [tid] else rq.list q := by
      intro q
      rw [heq, list_update, hlist]
      rfl
    refine ⟨⟨fun q => ?_, fun q => ?_⟩, fun q => ?_⟩
    · rw [heq]
      simp only [Function.update_apply, ← Fin.ext_iff]
      split
      · exact hfill
      · exact h.filled q
    · rw [hlists, heq, bit_set]
      by_cases hqp : q = p
      · simp [hqp]
      · simpa [hqp] using h.bit_iff q
    · rw [hlists]
      simp only [hlen, hroom, and_true]

/-- The word `dequeue` starts from. -/
theorem find_word_some {b : Nat → BitVec 64} {wi : Nat}
    (h : [3, 2, 1, 0].find? (fun w => b w != 0#64) = some wi) :
    wi < 4 ∧ b wi ≠ 0#64 ∧ ∀ w, wi < w → w < 4 → b w = 0#64 := by
  have hne := List.find?_some h
  rw [bne_iff_ne] at hne
  obtain ⟨-, as, bs, hsplit, hbefore⟩ := List.find?_eq_some_iff_append.mp h
  have hmem : wi ∈ [3, 2, 1, 0] := List.mem_of_find?_eq_some h
  refine ⟨by simp at hmem; omega, hne, fun w hlt hw => ?_⟩
  by_contra hcon
  -- a higher non-zero word would have been found first
  have hpos : w ∈ as := by
    have hwmem : w ∈ as ++ wi :: bs := by
      rw [← hsplit]
      simp
      omega
    rcases List.mem_append.mp hwmem with hin | hin
    · exact hin
    · have hsorted : ([3, 2, 1, 0] : List Nat).Pairwise (· > ·) := by decide
      rw [hsplit, List.pairwise_append] at hsorted
      rcases List.mem_cons.mp hin with rfl | hin
      · omega
      · have := List.rel_of_pairwise_cons hsorted.2.1 hin
        omega
  have := hbefore w hpos
  simp [hcon] at this

theorem find_word_none {b : Nat → BitVec 64}
    (h : [3, 2, 1, 0].find? (fun w => b w != 0#64) = none) : ∀ w < 4, b w = 0#64 := by
  intro w hw
  rw [List.find?_eq_none] at h
  have := h w (by simp; omega)
  simpa using this

/-- The highest set bit of a non-zero word. -/
theorem log2_highest {w : BitVec 64} (h : w ≠ 0#64) :
    w.toNat.log2 < 64 ∧ w.getLsbD w.toNat.log2 = true ∧
      ∀ k, w.toNat.log2 < k → w.getLsbD k = false := by
  have hne : w.toNat ≠ 0 := fun h0 => h (BitVec.eq_of_toNat_eq (by simpa using h0))
  refine ⟨(Nat.log2_lt hne).mpr w.isLt, Nat.testBit_log2 hne, fun k hk => ?_⟩
  exact Nat.testBit_lt_two_pow ((Nat.log2_lt hne).mp hk)

/-- A filled ring is popped at its head, without skipping. -/
theorem ringPop_cons {r : Ring ThreadId} (hr : r.Filled ringCap) {tid : ThreadId}
    {l : List ThreadId} (h : r.toList ringCap = tid :: l) :
    ∃ r', ringPop r = some (some tid, r') ∧ r'.Filled ringCap ∧ r'.toList ringCap = l := by
  obtain ⟨r', -, htake, hfill, hl⟩ := Ring.pop_cons hr h
  have hcount : r.count ≠ 0 := by
    have := Ring.length_toList hr
    rw [h, List.length_cons] at this
    omega
  have hitem : r.items r.head = some tid := congrArg Prod.fst htake
  refine ⟨r', ?_, hfill, hl⟩
  simp only [ringPop, ringPopLoop, if_neg hcount, hitem, htake]

theorem Valid.list_eq_nil {rq : ReadyQueue} (h : rq.Valid) {q : Priority} (hq : rq.bit q = false) :
    rq.list q = [] := by
  by_contra hne
  rw [(h.bit_iff q).mpr hne] at hq
  cases hq

/-- The priority that `dequeue` finds is the highest one whose bit is set. -/
theorem highest_bit {rq : ReadyQueue} {wi : Nat}
    (hfind : [3, 2, 1, 0].find? (fun w => rq.bitmap w != 0#64) = some wi) :
    ∃ p : Priority, p.val = wi * 64 + (rq.bitmap wi).toNat.log2 ∧ p.val / 64 = wi ∧
      p.val % 64 = (rq.bitmap wi).toNat.log2 ∧ rq.bit p = true ∧ ∀ q, p < q → rq.bit q = false := by
  obtain ⟨hwi, hne, habove⟩ := find_word_some hfind
  obtain ⟨hlt, hset, hhigh⟩ := log2_highest hne
  refine ⟨⟨wi * 64 + (rq.bitmap wi).toNat.log2, by omega⟩, rfl, by simp only; omega,
    by simp only; omega, ?_, fun q hq => ?_⟩
  · rw [bit]
    simp only
    rw [show (wi * 64 + (rq.bitmap wi).toNat.log2) / 64 = wi by omega,
      show (wi * 64 + (rq.bitmap wi).toNat.log2) % 64 = (rq.bitmap wi).toNat.log2 by omega]
    exact hset
  · have hq256 := q.isLt
    have hpq : wi * 64 + (rq.bitmap wi).toNat.log2 < q.val := hq
    unfold bit
    by_cases hw : q.val / 64 = wi
    · rw [hw]
      exact hhigh _ (by omega)
    · rw [habove _ (by omega) (by omega)]
      simp

/-- No bit is set where `dequeue` finds no word. -/
theorem no_bit {rq : ReadyQueue} (hfind : [3, 2, 1, 0].find? (fun w => rq.bitmap w != 0#64) = none)
    (p : Priority) : rq.bit p = false := by
  have hp := p.isLt
  rw [bit, find_word_none hfind _ (by omega)]
  simp

/-- In a valid queue that is the highest priority that has an id. -/
theorem Valid.highest {rq : ReadyQueue} (h : rq.Valid) {wi : Nat}
    (hfind : [3, 2, 1, 0].find? (fun w => rq.bitmap w != 0#64) = some wi) :
    ∃ p : Priority, p.val = wi * 64 + (rq.bitmap wi).toNat.log2 ∧ p.val / 64 = wi ∧
      p.val % 64 = (rq.bitmap wi).toNat.log2 ∧ rq.list p ≠ [] ∧ ∀ q, p < q → rq.list q = [] := by
  obtain ⟨p, hp, hpw, hpb, hset, habove⟩ := highest_bit hfind
  exact ⟨p, hp, hpw, hpb, (h.bit_iff p).mp hset, fun q hq => h.list_eq_nil (habove q hq)⟩

/-- A queue from which the oldest id of `p` was taken; its bit is cleared when the ring ran
empty. -/
theorem Valid.popped {rq : ReadyQueue} (h : rq.Valid) {p : Priority} {tid : ThreadId}
    {rest : List ThreadId} {r : Ring ThreadId} (hlist : rq.list p = tid :: rest)
    (hfill : r.Filled ringCap) (hrest : r.toList ringCap = rest) :
    Valid {
      bitmap :=
        if r.count = 0 then
          Function.update rq.bitmap (p / 64) (rq.bitmap (p / 64) &&& ~~~(1#64 <<< (p.val % 64)))
        else rq.bitmap
      queues := Function.update rq.queues p r } := by
  have hempty : r.count = 0 ↔ rest = [] := by
    rw [← Ring.length_toList hfill, hrest, List.length_eq_zero_iff]
  refine ⟨fun q => ?_, fun q => ?_⟩
  · simp only [Function.update_apply, ← Fin.ext_iff]
    split
    · exact hfill
    · exact h.filled q
  · rw [list_update, hrest]
    by_cases hcount : r.count = 0
    · rw [if_pos hcount, bit_clear]
      by_cases hqp : q = p
      · simp [hqp, hempty.mp hcount]
      · simpa [hqp] using h.bit_iff q
    · rw [if_neg hcount]
      refine Iff.trans (h.bit_iff q) ?_
      by_cases hqp : q = p
      · subst hqp
        rw [if_pos rfl, hlist]
        exact iff_of_true (List.cons_ne_nil _ _) fun hnil => hcount (hempty.mpr hnil)
      · rw [if_neg hqp]

/-- **Dequeueing** takes the oldest id of the highest priority that has any, and the `expect`
does not fail. -/
theorem dequeue_spec {rq : ReadyQueue} (h : rq.Valid) :
    (rq.dequeue = some (none, rq) ∧ ∀ p, rq.list p = []) ∨
    ∃ (p : Priority) (tid : ThreadId) (rest : List ThreadId) (rq' : ReadyQueue),
      rq.dequeue = some (some tid, rq') ∧ rq.list p = tid :: rest ∧
        (∀ q, p < q → rq.list q = []) ∧ rq'.Valid ∧
        ∀ q, rq'.list q = if q = p then rest else rq.list q := by
  unfold dequeue
  cases hfind : [3, 2, 1, 0].find? fun w => rq.bitmap w != 0#64 with
  | none =>
    exact Or.inl ⟨rfl, fun p => h.list_eq_nil (no_bit hfind p)⟩
  | some wi =>
    obtain ⟨p, hp, hpw, hpb, hnonempty, habove⟩ := h.highest hfind
    obtain ⟨tid, rest, hlist⟩ := List.exists_cons_of_ne_nil hnonempty
    obtain ⟨r, hpop, hfill, hrest⟩ := ringPop_cons (h.filled p) hlist
    have hvalid := h.popped hlist hfill hrest
    rw [hpw, hpb] at hvalid
    refine Or.inr ⟨p, tid, rest, _, ?_, hlist, habove, hvalid, fun q => by rw [list_update, hrest]⟩
    simp only [← hp, hpop]

/-- The same of `dequeue_ready`. -/
theorem dequeueReady_spec {rq : ReadyQueue} (h : rq.Valid) :
    (rq.dequeueReady = (none, rq) ∧ ∀ p, rq.list p = []) ∨
    ∃ (p : Priority) (tid : ThreadId) (rest : List ThreadId) (rq' : ReadyQueue),
      rq.dequeueReady = (some tid, rq') ∧ rq.list p = tid :: rest ∧
        (∀ q, p < q → rq.list q = []) ∧ rq'.Valid ∧
        ∀ q, rq'.list q = if q = p then rest else rq.list q := by
  rcases dequeue_spec h with ⟨hnone, hnil⟩ | ⟨p, tid, rest, rq', hsome, hspec⟩
  · exact Or.inl ⟨by rw [dequeueReady, hnone, Option.getD_some], hnil⟩
  · exact Or.inr ⟨p, tid, rest, rq', by rw [dequeueReady, hsome, Option.getD_some], hspec⟩

end ReadyQueue

end QuackOS.Sche
