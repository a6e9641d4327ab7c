import QuackOS.Lib.Generations
import QuackOS.Lib.Run
import QuackOS.Sche.Thread

/-!
# Thread ids over the life of the table

`kernel/sche/thread.rs` promises that a thread id held after its thread is gone does not reach the
thread that has the slot now.  The generation of a slot is a `u16` that wraps.

* `Ledger` — the table with the ids that `create_thread` returned and `destroy_thread` freed;
* `Ledger.Safe` — what the promise says of one state;
* `safe_iff` — a run is safe in every state exactly when slot 0 is given out at most 65535 times
  and every other slot at most 65536 times.
-/

namespace QuackOS.Sche

/-- `ThreadTableInner::count` is the number of threads. -/
def ThreadTable.Counted (t : ThreadTable) : Prop := t.count = Slots.occupied maxThreads t.slots

/-- A call on the thread table. -/
inductive TableCall
  | create (priority : Priority) (ttbr0 asid : BitVec 64)
  | destroy (id : ThreadId)

/-- The table, every id that `create_thread` returned, and every id that `destroy_thread` freed. -/
structure Ledger where
  table : ThreadTable
  created : List ThreadId
  destroyed : List ThreadId

namespace Ledger

/-- The empty table. -/
def start : Ledger := { table := ThreadTable.new, created := [], destroyed := [] }

/-- One call. -/
def step (s : Ledger) : TableCall → Ledger
  | .create priority ttbr0 asid =>
      match s.table.createThread priority ttbr0 asid with
      | none => s
      | some (tid, table) => { s with table, created := s.created ++ [tid] }
  | .destroy id =>
      match s.table.lookup id with
      | none => s
      | some _ => { s with table := s.table.destroyThread id, destroyed := s.destroyed ++ [id] }

/-- What thread ids promise: no id is null, an id that was destroyed does not resolve, every
thread is reached by its id and by no other thread's, and the threads are counted. -/
structure Safe (s : Ledger) : Prop where
  nonnull : ThreadId.null ∉ s.created
  dead : ∀ id ∈ s.destroyed, s.table.lookup id = none
  resolves : ∀ i th, s.table.slots i = some th → s.table.lookup th.id = some th
  distinct : ∀ i j th th', s.table.slots i = some th → s.table.slots j = some th' →
    th.id = th'.id → i = j
  counted : s.table.Counted

/-- How often a slot can be given out: slot 0 with generation 0 would be the null id. -/
def slotLife (i : ℕ) : ℕ := if i = 0 then 2 ^ 16 - 1 else 2 ^ 16

/-- The names given out, as slot and generation. -/
def names (s : Ledger) : List (ℕ × ℕ) := s.created.map fun t => (t.index, t.generation)

/-- A new thread does not take a slot that was given out as often as it can be. -/
def InLife (s : Ledger) : TableCall → Prop
  | .create .. => ∀ i, Slots.firstFree maxThreads s.table.slots = some i →
      Generations.issued s.names i < slotLife i
  | .destroy _ => True

theorem slotLife_le (i : ℕ) : slotLife i ≤ 2 ^ 16 := by
  unfold slotLife
  split <;> omega

theorem mem_names {s : Ledger} {id : ThreadId} :
    (id.index, id.generation) ∈ s.names ↔ id ∈ s.created := by
  simp only [names, List.mem_map, Prod.mk.injEq]
  constructor
  · rintro ⟨t, ht, hi, hg⟩
    rwa [← ThreadId.ext hi hg]
  · intro h
    exact ⟨id, h, rfl, rfl⟩

/-! ## One call -/

/-- A call that creates a thread. -/
theorem step_create {s : Ledger} {p : Priority} {tt as : BitVec 64} {i : ℕ}
    (h : Slots.firstFree maxThreads s.table.slots = some i) :
    s.step (.create p tt as) =
      { s with
        table := {
          slots := Function.update s.table.slots i
            (some (Thread.new ⟨i, s.table.nextGeneration i⟩ p tt as))
          generations := Function.update s.table.generations i (s.table.nextGeneration i)
          count := s.table.count + 1 }
        created := s.created ++ [⟨i, s.table.nextGeneration i⟩] } := by
  simp only [step, ThreadTable.createThread, ThreadTable.allocSlot, h]

theorem step_create_full {s : Ledger} {p : Priority} {tt as : BitVec 64}
    (h : Slots.firstFree maxThreads s.table.slots = none) : s.step (.create p tt as) = s := by
  simp only [step, ThreadTable.createThread, ThreadTable.allocSlot, h]

theorem step_destroy {s : Ledger} {id : ThreadId} {th : Thread} (hl : s.table.lookup id = some th) :
    s.step (.destroy id) =
      { s with
        table := { s.table with
          slots := Function.update s.table.slots id.index none
          count := s.table.count - 1 }
        destroyed := s.destroyed ++ [id] } := by
  simp only [step, ThreadTable.destroyThread, hl]

/-- The table and the ids belong together: a thread is in the slot of its id, under the slot's
generation, and an id given out names a thread until it is destroyed. -/
structure Inv (s : Ledger) : Prop where
  numbered : Generations.Numbered (2 ^ 16) s.table.generations s.names
  inLife : ∀ i, Generations.issued s.names i ≤ slotLife i
  placed : ∀ i th, s.table.slots i = some th →
    i < maxThreads ∧ th.id = ⟨i, s.table.generations i⟩ ∧ th.id ∈ s.created ∧
      th.id ∉ s.destroyed
  present : ∀ id ∈ s.created, id ∉ s.destroyed → ∃ th, s.table.slots id.index = some th ∧ th.id = id
  destroyed : ∀ id ∈ s.destroyed, id ∈ s.created
  counted : s.table.Counted

theorem inv_start : start.Inv where
  numbered := Generations.numbered_nil
  inLife i := Nat.zero_le _
  placed i th h := by cases h
  present id h := by cases h
  destroyed id h := by cases h
  counted := (Slots.occupied_empty maxThreads).symm

theorem Inv.nonnull {s : Ledger} (h : s.Inv) {id : ThreadId} (hid : id ∈ s.created) :
    id.isNull = false := by
  by_cases hi : id.index = 0
  · have hlife := h.inLife id.index
    have hissued : Generations.issued s.names id.index < 2 ^ 16 := by
      rw [slotLife, if_pos hi] at hlife
      omega
    have hpos := h.numbered.pos hissued (mem_names.mpr hid)
    simp [ThreadId.isNull]
    omega
  · simp [ThreadId.isNull, hi]

theorem Inv.safe {s : Ledger} (h : s.Inv) : s.Safe where
  nonnull hnull := by
    have := h.nonnull hnull
    cases this
  dead id hid := by
    cases hl : s.table.lookup id with
    | none => rfl
    | some th =>
      obtain ⟨-, -, hs, hg⟩ := ThreadTable.lookup_eq_some.mp hl
      obtain ⟨-, hthid, -, hnot⟩ := h.placed _ _ hs
      have heq : th.id = id := ThreadId.ext (by rw [hthid]) hg
      exact absurd (heq ▸ hid) hnot
  resolves i th hs := by
    obtain ⟨hlt, hthid, hcreated, -⟩ := h.placed i th hs
    have hidx : th.id.index = i := by rw [hthid]
    exact ThreadTable.lookup_eq_some.mpr ⟨h.nonnull hcreated, by rwa [hidx], by rwa [hidx], rfl⟩
  distinct i j th th' hs hs' heq := by
    have hi := (h.placed i th hs).2.1
    have hj := (h.placed j th' hs').2.1
    rw [hi, hj] at heq
    exact (ThreadId.ext_iff.mp heq).1
  counted := h.counted

theorem names_append (s : Ledger) (t : ThreadTable) (id : ThreadId) :
    ({ s with table := t, created := s.created ++ [id] } : Ledger).names =
      s.names ++ [(id.index, id.generation)] := by
  simp [names]

theorem Inv.create {s : Ledger} (h : s.Inv) {p : Priority} {tt as : BitVec 64}
    (hlife : s.InLife (.create p tt as)) : (s.step (.create p tt as)).Inv := by
  cases hf : Slots.firstFree maxThreads s.table.slots with
  | none =>
    rw [step_create_full hf]
    exact h
  | some i =>
    obtain ⟨hfree, hlt, -⟩ := Slots.firstFree_eq_some.mp hf
    have hissued := hlife i hf
    have hnew : (⟨i, s.table.nextGeneration i⟩ : ThreadId) ∉ s.created := fun hmem =>
      h.numbered.fresh (by decide) (hissued.trans_le (slotLife_le i)) (mem_names.mpr hmem)
    rw [step_create hf]
    refine ⟨?_, fun j => ?_, fun j th hs => ?_, fun id hid hnd => ?_, fun id hid => ?_, ?_⟩
    · rw [names_append]
      exact h.numbered.push (by decide) i
    · rw [names_append]
      by_cases hj : j = i
      · rw [hj, Generations.issued_append_self]
        exact hissued
      · rw [Generations.issued_append_of_ne _ hj]
        exact h.inLife j
    · dsimp only at hs ⊢
      by_cases hj : j = i
      · subst hj
        rw [Function.update_self] at hs
        cases hs
        refine ⟨hlt, ?_, by simp [Thread.new], fun hd => hnew (h.destroyed _ hd)⟩
        rw [Function.update_self]
        rfl
      · rw [Function.update_of_ne hj] at hs ⊢
        obtain ⟨hlt', hthid, hcreated, hnd⟩ := h.placed j th hs
        exact ⟨hlt', hthid, List.mem_append_left _ hcreated, hnd⟩
    · dsimp only at hid hnd ⊢
      rcases List.mem_append.mp hid with hold | hself
      · obtain ⟨th, hs, hthid⟩ := h.present id hold hnd
        have hne : id.index ≠ i := by
          rintro rfl
          rw [hfree] at hs
          cases hs
        exact ⟨th, by rwa [Function.update_of_ne hne], hthid⟩
      · rw [List.mem_singleton.mp hself]
        exact ⟨_, Function.update_self .., rfl⟩
    · exact List.mem_append_left _ (h.destroyed id hid)
    · have hcount := Slots.occupied_insert hlt hfree
        (Thread.new ⟨i, s.table.nextGeneration i⟩ p tt as)
      exact (congrArg (· + 1) h.counted).trans hcount.symm

theorem Inv.destroy {s : Ledger} (h : s.Inv) (id : ThreadId) : (s.step (.destroy id)).Inv := by
  cases hl : s.table.lookup id with
  | none => simpa only [step, hl] using h
  | some th =>
    obtain ⟨-, hlt, hs, hg⟩ := ThreadTable.lookup_eq_some.mp hl
    obtain ⟨-, hthid, hcreated, -⟩ := h.placed _ _ hs
    have hself : th.id = id := ThreadId.ext (by rw [hthid]) hg
    rw [step_destroy hl]
    refine ⟨h.numbered, h.inLife, fun j th' hs' => ?_, fun id' hid' hnd => ?_,
      fun id' hid' => ?_, ?_⟩
    · dsimp only at hs' ⊢
      by_cases hj : j = id.index
      · subst hj
        rw [Function.update_self] at hs'
        cases hs'
      · rw [Function.update_of_ne hj] at hs'
        obtain ⟨hlt', hthid', hcreated', hnd⟩ := h.placed j th' hs'
        refine ⟨hlt', hthid', hcreated', fun hmem => ?_⟩
        rcases List.mem_append.mp hmem with hold | hnew
        · exact hnd hold
        · rw [hthid', List.mem_singleton] at hnew
          exact hj (by rw [← hnew])
    · dsimp only at hnd ⊢
      obtain ⟨th', hs', hthid'⟩ := h.present id' hid' fun hd => hnd (List.mem_append_left _ hd)
      have hne : id'.index ≠ id.index := by
        intro heq
        rw [heq, hs, Option.some.injEq] at hs'
        rw [← hs', hself] at hthid'
        exact hnd (List.mem_append_right _ (List.mem_singleton.mpr hthid'.symm))
      exact ⟨th', by rwa [Function.update_of_ne hne], hthid'⟩
    · rcases List.mem_append.mp hid' with hold | hnew
      · exact h.destroyed id' hold
      · rw [List.mem_singleton.mp hnew, ← hself]
        exact hcreated
    · have hcount := Slots.occupied_remove hlt hs
      have hbefore := h.counted
      unfold ThreadTable.Counted at hbefore ⊢
      dsimp only
      omega

theorem Inv.step {s : Ledger} (h : s.Inv) {c : TableCall} (hlife : s.InLife c) :
    (s.step c).Inv := by
  cases c with
  | create p tt as => exact h.create hlife
  | destroy id => exact h.destroy id

/-- A slot given out once too often: slot 0 hands out the null id, any other slot the id of its
first thread, which was destroyed long ago. -/
theorem Inv.not_safe {s : Ledger} (h : s.Inv) {c : TableCall} (hlife : ¬ s.InLife c) :
    ¬ (s.step c).Safe := by
  cases c with
  | destroy id => exact absurd trivial hlife
  | create p tt as =>
    simp only [InLife, not_forall] at hlife
    obtain ⟨i, hf, hspent⟩ := hlife
    obtain ⟨hfree, hlt, -⟩ := Slots.firstFree_eq_some.mp hf
    have hissued : Generations.issued s.names i = slotLife i := by
      have := h.inLife i
      omega
    rw [step_create hf]
    intro hsafe
    by_cases hi : i = 0
    · have hzero : s.table.nextGeneration i = 0 := by
        refine (h.numbered.next_eq (by decide) i).trans ?_
        rw [hissued, hi]
        rfl
      refine hsafe.nonnull (List.mem_append_right _ (List.mem_singleton.mpr ?_))
      rw [hzero, hi]
      rfl
    · rw [slotLife, if_neg hi] at hissued
      have hcreated : (⟨i, s.table.nextGeneration i⟩ : ThreadId) ∈ s.created :=
        mem_names.mp (h.numbered.reissued (by decide) hissued.ge)
      have hdestroyed : (⟨i, s.table.nextGeneration i⟩ : ThreadId) ∈ s.destroyed := by
        by_contra hnd
        obtain ⟨th, hs, -⟩ := h.present _ hcreated hnd
        rw [hfree] at hs
        cases hs
      have hdead := hsafe.dead _ hdestroyed
      have hlive := hsafe.resolves i _ (Function.update_self ..)
      exact absurd (hlive.symm.trans hdead) (by simp)

/-- **Thread ids are safe exactly as long as no slot is given out too often**: in every state of a
run the promise holds, if and only if no call takes slot 0 for the 65536th time or another slot
for the 65537th time. -/
theorem safe_iff (calls : List TableCall) :
    (∀ pre, pre <+: calls → (Run.exec step start pre).Safe) ↔
      Run.Along step InLife start calls := by
  have hstep : ∀ s c, Inv s → InLife s c → Inv (step s c) := fun s c hs hc => hs.step hc
  have hbreak : ∀ s c, Inv s → ¬ InLife s c → ¬ Safe (step s c) := fun s c hs hc => hs.not_safe hc
  exact Run.forall_prefix_iff_along (fun _ hs => hs.safe) hstep hbreak inv_start calls

/-! ## The run that wraps -/

/-- Threads created and destroyed, one after the other. -/
def rounds : ℕ → List TableCall
  | 0 => []
  | n + 1 => rounds n ++ [.create 128 0 0, .destroy ⟨0, n + 1⟩]

/-- A thread created and destroyed again leaves the table as it was, the generation apart. -/
theorem create_destroy {s : Ledger} {i : ℕ}
    (hf : Slots.firstFree maxThreads s.table.slots = some i)
    (hgen : s.table.nextGeneration i ≠ 0) (p : Priority) (tt as : BitVec 64) :
    ((s.step (.create p tt as)).step (.destroy ⟨i, s.table.nextGeneration i⟩)).table.slots =
        s.table.slots ∧
      ((s.step (.create p tt as)).step
        (.destroy ⟨i, s.table.nextGeneration i⟩)).table.generations i =
          s.table.nextGeneration i := by
  obtain ⟨hfree, hlt, -⟩ := Slots.firstFree_eq_some.mp hf
  have hnull : (⟨i, s.table.nextGeneration i⟩ : ThreadId).isNull = false := by
    simp [ThreadId.isNull, hgen]
  have hl : (s.step (.create p tt as)).table.lookup ⟨i, s.table.nextGeneration i⟩ =
      some (Thread.new ⟨i, s.table.nextGeneration i⟩ p tt as) := by
    rw [step_create hf]
    exact ThreadTable.lookup_eq_some.mpr ⟨hnull, hlt, Function.update_self .., rfl⟩
  rw [step_destroy hl, step_create hf]
  refine ⟨?_, Function.update_self ..⟩
  dsimp only
  rw [Function.update_idem, ← hfree]
  exact Function.update_eq_self i s.table.slots

theorem firstFree_empty : Slots.firstFree maxThreads (fun _ => (none : Option Thread)) = some 0 :=
  Slots.firstFree_eq_some.mpr ⟨rfl, by decide, fun j hj => absurd hj (Nat.not_lt_zero j)⟩

/-- The table after some rounds: empty, and slot 0 has counted them. -/
theorem exec_rounds {n : ℕ} (hn : n < 2 ^ 16) :
    (Run.exec step start (rounds n)).table.slots = (fun _ => none) ∧
      (Run.exec step start (rounds n)).table.generations 0 = n := by
  induction n with
  | zero => exact ⟨rfl, rfl⟩
  | succ n ih =>
    obtain ⟨hslots, hgen⟩ := ih (by omega)
    have hf : Slots.firstFree maxThreads (Run.exec step start (rounds n)).table.slots = some 0 := by
      rw [hslots]
      exact firstFree_empty
    have hnext : (Run.exec step start (rounds n)).table.nextGeneration 0 = n + 1 := by
      unfold ThreadTable.nextGeneration
      rw [hgen]
      split <;> omega
    obtain ⟨hslots', hgen'⟩ := create_destroy hf (by omega) 128 0 0
    rw [hnext] at hslots' hgen'
    rw [rounds, Run.exec_append]
    exact ⟨hslots'.trans hslots, hgen'⟩

/-- The next round after the last generation gets the null id. -/
theorem create_after_rounds {n : ℕ} (hn : n + 1 = 2 ^ 16) :
    ¬ (Run.exec step start (rounds n ++ [.create 128 0 0])).Safe := by
  obtain ⟨hslots, hgen⟩ := exec_rounds (n := n) (by omega)
  have hf : Slots.firstFree maxThreads (Run.exec step start (rounds n)).table.slots = some 0 := by
    rw [hslots]
    exact firstFree_empty
  have hnext : (Run.exec step start (rounds n)).table.nextGeneration 0 = 0 := by
    rw [ThreadTable.nextGeneration, hgen, hn, Nat.mod_self, if_neg (by omega)]
  rw [Run.exec_append, Run.exec_cons, Run.exec_nil, step_create hf, hnext]
  exact fun hsafe => hsafe.nonnull (List.mem_append_right _ (List.mem_singleton.mpr rfl))

/-- After 65535 rounds `create_thread` returns the null id. -/
theorem rounds_not_safe :
    ¬ ∀ pre : List TableCall, pre <+: rounds 65535 ++ [.create 128 0 0] →
      (Run.exec step start pre).Safe :=
  fun h => create_after_rounds (n := 65535) rfl (h _ (List.prefix_refl _))

end Ledger

end QuackOS.Sche
