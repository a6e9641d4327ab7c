import QuackOS.Vm.Filled

/-!
# Prefaulting

`resolve_with_prefault` of `common/src/usr/mm/page_fault.rs` and `handle_page_fault` of
`common/src/usr/mm/server.rs`: with prefaulting on, a fault also takes the pages behind its own, and
puts them in a batch beside the reply.

* `resolveWithPrefault`, `MmServer.handlePageFault` — one fault;
* `handlePageFault_spec` — **what becomes of every page**: it is in the reply or in the batch;
* `MmSystem` — the server, the allocator and the replies sent so far, under any calls;
* `prefault_conserves_iff` — **no page is lost just as long as no fault reaches for a second page**: the
  batch is dropped, and its pages with it.

A function that may panic returns an `Option`.
-/

namespace QuackOS.Vm

open Tiling VmaManager

/-! ## The batch -/

/-- `PREFAULT_BATCH`. -/
def prefaultBatch : ℕ := 5

/-- `BatchMapping`. -/
structure BatchMapping where
  vaddr : ℕ
  paddr : ℕ
  flags : ℕ

/-- `BatchMappingArray`: the entries in use. -/
structure BatchMappingArray where
  entries : List BatchMapping

namespace BatchMappingArray

/-- `BatchMappingArray::new`. -/
def new : BatchMappingArray := ⟨[]⟩

/-- `push`; a full batch drops the entry. -/
def push (batch : BatchMappingArray) (vaddr paddr flags : ℕ) : BatchMappingArray :=
  if batch.entries.length < prefaultBatch then ⟨batch.entries ++ [⟨vaddr, paddr, flags⟩]⟩ else batch

end BatchMappingArray

/-- The page `i` pages behind the page at `baseVaddr`; the sum wraps around. -/
def nextVa (baseVaddr i : ℕ) : ℕ := (baseVaddr + i * 4096) % 2 ^ 64

/-- The loop of `resolve_with_prefault`. -/
def prefaultLoop (vma : VmaEntry) (baseVaddr : ℕ) :
    List ℕ → BatchMappingArray → Allocator → Option (BatchMappingArray × Allocator)
  | [], batch, a => some (batch, a)
  | i :: is, batch, a =>
    if nextVa baseVaddr i ≥ vma.endVaddr then some (batch, a)
    else do
      match ← a.allocPage with
      | (none, a) => return (batch, a)
      | (some pa, a) =>
        prefaultLoop vma baseVaddr is (batch.push (nextVa baseVaddr i) pa vma.perms.asBits) a

/-- `resolve_with_prefault`. -/
def resolveWithPrefault (fault : IpcPageFault) (policy : OomPolicy) (m : VmaManager) (a : Allocator) :
    Option (VmaManager × Allocator × Except MmError (MmRequest × BatchMappingArray)) := do
  match ← resolvePageFault fault policy m a with
  | (m, a, .error e) => return (m, a, .error e)
  | (m, a, .ok primary) =>
    match ← m.find fault.faultVaddr with
    | none => return (m, a, .ok (primary, .new))
    | some vma =>
      let batch := match primary with
        | .mapSingle _ vaddr paddr flags => BatchMappingArray.new.push vaddr paddr flags
        | _ => .new
      let pages := List.range' 1 (prefaultBatch - 1)
      let (batch, a) ← prefaultLoop vma (pageStart fault.faultVaddr) pages batch a
      return (m, a, .ok (primary, batch))

namespace MmServer

/-- The call of `handle_page_fault` on the areas of the process; the batch is dropped. -/
def resolve (s : MmServer) (fault : IpcPageFault) (m : VmaManager) (a : Allocator) :
    Option (VmaManager × Allocator × Except MmError MmRequest) :=
  if s.prefaultEnabled then do
    let (m, a, r) ← resolveWithPrefault fault s.oomPolicy m a
    return (m, a, r.map Prod.fst)
  else resolvePageFault fault s.oomPolicy m a

/-- `fault.addr_space_id.0 as ProcessId`. -/
def pidOf (fault : IpcPageFault) : ℕ := fault.addrSpaceId % 2 ^ 32

/-- `handle_page_fault`, with the allocator that it works on. -/
def handlePageFault (s : MmServer) (fault : IpcPageFault) (a : Allocator) :
    Option (MmServer × Allocator × Except MmError MmRequest) := do
  let pid := pidOf fault
  -- unknown address spaces are registered
  let s := if (s.processes.get pid).isNone then (s.registerProcess pid fault.addrSpaceId).1 else s
  let call := fun m => (s.resolve fault m a).map fun (m, a, r) => (m, Except.ok (a, r))
  match ← s.onVmas pid call with
  | (s, .error e) => return (s, a, .error e)
  | (s, .ok (a, r)) => return (s, a, r)

end MmServer

/-! ## What becomes of the pages -/

/-- The pages in a reply. -/
def repliedPages : Except MmError MmRequest → List ℕ
  | .ok (.mapSingle _ _ paddr _) => [paddr]
  | _ => []

/-- The fault is in the area `x`, as the search finds it. -/
def VmaManager.FaultsIn (m : VmaManager) (fault : IpcPageFault) (x : VmaEntry) : Prop :=
  (∃ m', m.locate fault.faultVaddr = some (m', .ok x)) ∧
    x.permits (faultCauseToPerms fault.cause) = true

/-- A permitted fault with a page of its area behind its own, while two pages are free. -/
def ReachesOn (m : VmaManager) (a : Allocator) (fault : IpcPageFault) : Prop :=
  (∃ x, m.FaultsIn fault x ∧ nextVa (pageStart fault.faultVaddr) 1 < x.endVaddr) ∧
    ∃ p q, p ≠ q ∧ a.Free p ∧ a.Free q

/-- The condition of a fault that loses pages. -/
def MmServer.LosesPages (s : MmServer) (a : Allocator) (fault : IpcPageFault) : Prop :=
  s.prefaultEnabled = true ∧ ∃ m, s.vmas (MmServer.pidOf fault) = some m ∧ ReachesOn m a fault

/-- From `a` to `a'` the pages `ps` have gone out beside the pages of the reply `r`. -/
def Spent (out : List (ℕ × ℕ)) (a a' : Allocator) (ps : List ℕ) (r : Except MmError MmRequest) :
    Prop :=
  a'.HandedOut ((ps ++ repliedPages r).map (·, 0) ++ out) ∧ a'.totalPages = a.totalPages

section Pages

variable {m : VmaManager} {a a' : Allocator} {out : List (ℕ × ℕ)} {fault : IpcPageFault}
  {policy : OomPolicy} {p : ℕ}

theorem spent_nothing (h : a.HandedOut out) (e : MmError) : Spent out a a [] (.error e) := ⟨h, rfl⟩

/-- The pages that the loop takes; it takes none if the first is behind the area or none is free. -/
theorem prefaultLoop_spec (h : a.HandedOut out) (vma : VmaEntry) (baseVaddr : ℕ) (is : List ℕ)
    (batch : BatchMappingArray) :
    ∃ batch' a' ps, prefaultLoop vma baseVaddr is batch a = some (batch', a') ∧
      a'.HandedOut (ps.map (·, 0) ++ out) ∧ a'.totalPages = a.totalPages ∧
      ∀ i ∈ is.head?, (ps = [] ↔ vma.endVaddr ≤ nextVa baseVaddr i ∨ ∀ q, ¬ a.Free q) := by
  induction is generalizing a out batch with
  | nil => exact ⟨batch, a, [], rfl, h, rfl, fun _ hi => nomatch hi⟩
  | cons i is ih =>
    simp only [List.head?_cons, Option.mem_def, Option.some_inj, forall_eq']
    rw [prefaultLoop]
    split
    · rename_i hend
      exact ⟨batch, a, [], rfl, h, rfl, iff_of_true rfl (Or.inl hend)⟩
    · rename_i hend
      rcases h.allocPage with ⟨p, a₁, halloc, hout, -, htotal⟩ | ⟨halloc, hnone⟩
      · obtain ⟨batch', a', ps, hloop, hout', htotal', -⟩ :=
          ih hout (batch.push (nextVa baseVaddr i) p vma.perms.asBits)
        have hfree : a.Free p := (h.takes hout htotal).1
        refine ⟨batch', a', ps ++ [p], ?_, ?_, htotal'.trans htotal, ?_⟩
        · rw [halloc, Option.bind_eq_bind, Option.bind_some]
          exact hloop
        · rwa [List.map_append, List.append_assoc]
        · refine iff_of_false (by simp) ?_
          rintro (hle | hno)
          · exact hend hle
          · exact hno p hfree
      · refine ⟨batch, a, [], ?_, h, rfl, iff_of_true rfl (Or.inr hnone)⟩
        rw [halloc]
        rfl

/-- **One fault without prefaulting**: it is refused, or a page goes out into the reply. -/
theorem resolvePageFault_spec (h : m.Filled) (ha : a.HandedOut out) :
    (∃ m' e, resolvePageFault fault policy m a = some (m', a, .error e) ∧ m'.Filled ∧
      ((∃ x, m.FaultsIn fault x) → ∀ q, ¬ a.Free q)) ∨
    ∃ m' a' x p flags, resolvePageFault fault policy m a = some (m', a', .ok
        (.mapSingle fault.addrSpaceId fault.faultVaddr p flags)) ∧ m'.Filled ∧
      m.FaultsIn fault x ∧ m'.find fault.faultVaddr = some (some x) ∧
      a'.HandedOut ((p, 0) :: out) ∧ a'.totalPages = a.totalPages := by
  obtain ⟨m', r, hlocate, hm', hfind⟩ := h.locate fault.faultVaddr
  have hin : ∀ x, m.FaultsIn fault x → r = .ok x := by
    rintro x ⟨⟨m₁, hx⟩, -⟩
    rw [hlocate] at hx
    exact (Prod.mk.inj (Option.some.inj hx)).2
  cases r with
  | error e =>
    refine Or.inl ⟨m', e, ?_, hm', ?_⟩
    · rw [resolvePageFault, hlocate]
      rfl
    · rintro ⟨x, hx⟩
      cases hin x hx
  | ok x =>
    have hrun : resolvePageFault fault policy m a =
        (answerFault fault policy x a).bind fun r => some (m', r.1, r.2) := by
      rw [resolvePageFault, hlocate]
      rfl
    cases hp : x.permits (faultCauseToPerms fault.cause) with
    | false =>
      refine Or.inl ⟨m', .permissionDenied, ?_, hm', ?_⟩
      · rw [hrun, answerFault_refused hp]
        rfl
      · rintro ⟨y, hy⟩
        have hyp := hy.2
        rw [← Except.ok.inj (hin y hy), hp] at hyp
        cases hyp
    | true =>
      rcases @answerFault_spec a out fault policy x ha hp with
        ⟨p, a', -, hout, -, htotal, hanswer⟩ | ⟨-, hnone, hanswer⟩
      · refine Or.inr ⟨m', a', x, p, replyFlags x fault.cause, ?_, hm', ⟨⟨m', hlocate⟩, hp⟩,
          hfind x rfl, hout, htotal⟩
        rw [hrun, hanswer]
        rfl
      · refine Or.inl ⟨m', .outOfMemory, ?_, hm', fun _ => hnone⟩
        rw [hrun, hanswer]
        rfl

/-- A second page is free just when one is left after the first has gone out. -/
theorem exists_free_iff (ha : a.HandedOut out) (ha' : a'.HandedOut ((p, 0) :: out))
    (htotal : a'.totalPages = a.totalPages) :
    (∃ q, a'.Free q) ↔ ∃ q r, q ≠ r ∧ a.Free q ∧ a.Free r := by
  obtain ⟨hp, hp', hothers⟩ := ha.takes ha' htotal
  constructor
  · rintro ⟨q, hq⟩
    have hne : q ≠ p := fun h => hp' (h ▸ hq)
    exact ⟨q, p, hne, (hothers q hne).mp hq, hp⟩
  · rintro ⟨q, r, hne, hq, hr⟩
    by_cases hqp : q = p
    · have hrp : r ≠ p := fun h => hne (hqp.trans h.symm)
      exact ⟨r, (hothers r hrp).mpr hr⟩
    · exact ⟨q, (hothers q hqp).mpr hq⟩

/-- **One fault with prefaulting**: the pages of the batch go out as well. -/
theorem resolveWithPrefault_spec (h : m.Filled) (ha : a.HandedOut out) :
    ∃ m' a' r ps, resolveWithPrefault fault policy m a = some (m', a', r) ∧ m'.Filled ∧
      Spent out a a' ps (r.map Prod.fst) ∧ (ps = [] ↔ ¬ ReachesOn m a fault) := by
  rcases @resolvePageFault_spec m a out fault policy h ha with
    ⟨m', e, hrun, hm', hnone⟩ | ⟨m', a₁, x, p, flags, hrun, hm', hx, hfind, hout, htotal⟩
  · refine ⟨m', a, .error e, [], ?_, hm', spent_nothing ha e, iff_of_true rfl ?_⟩
    · rw [resolveWithPrefault, hrun]
      rfl
    · rintro ⟨⟨x, hx, -⟩, q, -, -, hq, -⟩
      exact hnone ⟨x, hx⟩ q hq
  · obtain ⟨batch, a', ps, hloop, hout', htotal', hps⟩ := prefaultLoop_spec hout x
      (pageStart fault.faultVaddr) (List.range' 1 (prefaultBatch - 1))
      (BatchMappingArray.new.push fault.faultVaddr p flags)
    refine ⟨m', a', .ok (.mapSingle fault.addrSpaceId fault.faultVaddr p flags, batch), ps, ?_, hm',
      ⟨?_, htotal'.trans htotal⟩, ?_⟩
    · rw [resolveWithPrefault, hrun, Option.bind_eq_bind, Option.bind_some]
      simp only [hfind, Option.bind_eq_bind, Option.bind_some, hloop]
      rfl
    · rw [List.map_append, List.append_assoc]
      exact hout'
    · -- the area of the fault is the only one it is in
      have hreach : ReachesOn m a fault ↔
          nextVa (pageStart fault.faultVaddr) 1 < x.endVaddr ∧ ∃ q, a₁.Free q := by
        rw [ReachesOn, exists_free_iff ha hout htotal]
        refine and_congr_left fun _ => ⟨?_, fun hlt => ⟨x, hx, hlt⟩⟩
        rintro ⟨y, ⟨⟨m₁, hy⟩, -⟩, hlt⟩
        obtain ⟨m₂, hlocate⟩ := hx.1
        rw [hlocate] at hy
        obtain rfl := Except.ok.inj (Prod.mk.inj (Option.some.inj hy)).2
        exact hlt
      rw [hps 1 rfl, hreach, not_and_or, Nat.not_lt, not_exists]

end Pages

/-! ## Server states -/

namespace MmServer

/-- The tables in all slots are filled, also those of processes that a later entry of the same
number hides. -/
def Filled (s : MmServer) : Prop :=
  ∀ i st, s.processes.slots i = some st → st.vmaManager.Filled

section Filled

variable {s : MmServer} {a : Allocator} {out : List (ℕ × ℕ)} {pid : ℕ}

theorem filled_new (channel : ℕ) : (new channel).Filled := fun _ _ h => nomatch h

theorem Filled.update (h : s.Filled) (i n : ℕ) {o : Option ProcessMmState}
    (ho : ∀ st, o = some st → st.vmaManager.Filled) :
    Filled { s with processes := ⟨Function.update s.processes.slots i o, n⟩ } := by
  intro j st hj
  by_cases hji : j = i
  · subst hji
    simp only [Function.update_self] at hj
    exact ho st hj
  · simp only [Function.update_of_ne hji] at hj
    exact h j st hj

theorem Filled.registerProcess (h : s.Filled) (pid asid : ℕ) :
    (s.registerProcess pid asid).1.Filled := by
  rw [MmServer.registerProcess, ProcessTable.insert]
  cases Slots.firstFree maxProcesses s.processes.slots with
  | none => exact h
  | some i =>
    refine h.update i _ fun st hst => ?_
    rw [← Option.some.inj hst]
    exact QuackOS.Vm.filled_new

theorem Filled.unregisterProcess (h : s.Filled) (pid : ℕ) : (s.unregisterProcess pid).Filled := by
  rw [MmServer.unregisterProcess, ProcessTable.remove]
  cases Slots.position maxProcesses s.processes.slots (·.pid = pid) with
  | none => exact h
  | some i => exact h.update i _ fun st hst => nomatch hst

/-- A call on the areas of a process comes back, with the server's settings as they are. -/
theorem Filled.onVmas {α : Type} {f : VmaManager → Option (VmaManager × Except MmError α)}
    (h : s.Filled) (pid : ℕ) (hf : ∀ m, m.Filled → Kept (f m)) :
    ∃ s' r, s.onVmas pid f = some (s', r) ∧ s'.Filled := by
  cases hm : s.vmas pid with
  | none => exact ⟨s, _, onVmas_of_none hm, h⟩
  | some m =>
    obtain ⟨i, st, hpos, hslot, -, rfl⟩ := slot_of_vmas hm
    obtain ⟨m', r, hcall, hm'⟩ := hf _ (h i st hslot)
    refine ⟨s.putVmas i st m', r, ?_, h.update i _ fun st' hst' => ?_⟩
    · simp only [MmServer.onVmas, hpos, hslot, hcall]
      rfl
    · rw [← Option.some.inj hst']
      exact hm'

/-- A process that is registered anew has no areas. -/
theorem vmas_registerProcess (asid : ℕ) (h : s.vmas pid = none) :
    (s.registerProcess pid asid).1.vmas pid = none ∨
      (s.registerProcess pid asid).1.vmas pid = some .new := by
  have hnone : s.processes.get pid = none := Option.map_eq_none_iff.mp h
  rw [MmServer.registerProcess, ProcessTable.insert]
  cases hfree : Slots.firstFree maxProcesses s.processes.slots with
  | none => exact Or.inl h
  | some i =>
    have hself : Slots.lookup maxProcesses (Function.update s.processes.slots i
        (some ⟨pid, .new, asid⟩)) (·.pid = pid) = some (⟨pid, .new, asid⟩ : ProcessMmState) :=
      Slots.lookup_insert hnone hfree (decide_eq_true rfl)
    exact Or.inr (congrArg (Option.map ProcessMmState.vmaManager) hself)

/-- In an empty table no fault is in an area. -/
theorem not_reachesOn_new (fault : IpcPageFault) : ¬ ReachesOn .new a fault := by
  rintro ⟨⟨x, ⟨⟨m', hx⟩, -⟩, -⟩, -⟩
  have hlocate : VmaManager.new.locate fault.faultVaddr = some (.new, .error .noVma) := rfl
  rw [hlocate] at hx
  cases hx

/-- The call on the areas, with prefaulting on or off. -/
theorem resolve_spec {m : VmaManager} (fault : IpcPageFault) (h : m.Filled) (ha : a.HandedOut out) :
    ∃ m' a' r ps, s.resolve fault m a = some (m', a', r) ∧ m'.Filled ∧ Spent out a a' ps r ∧
      (ps = [] ↔ ¬ (s.prefaultEnabled = true ∧ ReachesOn m a fault)) := by
  unfold MmServer.resolve
  cases s.prefaultEnabled with
  | false =>
    rw [if_neg Bool.false_ne_true]
    simp only [Bool.false_eq_true, false_and, not_false_iff, iff_true]
    rcases @resolvePageFault_spec m a out fault s.oomPolicy h ha with
      ⟨m', e, hrun, hm', -⟩ | ⟨m', a', x, p, flags, hrun, hm', -, -, hout, htotal⟩
    · exact ⟨m', a, _, [], hrun, hm', spent_nothing ha e, rfl⟩
    · exact ⟨m', a', _, [], hrun, hm', ⟨hout, htotal⟩, rfl⟩
  | true =>
    obtain ⟨m', a', r, ps, hrun, hm', hspent, hps⟩ :=
      @resolveWithPrefault_spec m a out fault s.oomPolicy h ha
    refine ⟨m', a', r.map Prod.fst, ps, ?_, hm', hspent, ?_⟩
    · rw [if_pos rfl, hrun]
      rfl
    · rw [hps, eq_self, true_and]

/-- A fault of a process that is registered. -/
theorem Filled.onVmas_resolve {m : VmaManager} (h : s.Filled) (fault : IpcPageFault)
    (ha : a.HandedOut out) (hm : s.vmas pid = some m) :
    ∃ s' a' r ps, (s.onVmas pid fun m => (s.resolve fault m a).map fun (m, a, r) =>
        (m, Except.ok (a, r))) = some (s', .ok (a', r)) ∧ s'.Filled ∧ Spent out a a' ps r ∧
      (ps = [] ↔ ¬ (s.prefaultEnabled = true ∧ ReachesOn m a fault)) := by
  obtain ⟨i, st, hpos, hslot, -, rfl⟩ := slot_of_vmas hm
  obtain ⟨m', a', r, ps, hrun, hm', hspent, hps⟩ :=
    s.resolve_spec fault (h i st hslot) ha
  refine ⟨s.putVmas i st m', a', r, ps, ?_, h.update i _ fun st' hst' => ?_, hspent, hps⟩
  · simp only [MmServer.onVmas, hpos, hslot, hrun]
    rfl
  · rw [← Option.some.inj hst']
    exact hm'

/-- **What becomes of every page.**  The pages that a fault takes are in the reply, but for those
`ps` of the batch. -/
theorem Filled.handlePageFault_spec (h : s.Filled) (ha : a.HandedOut out) (fault : IpcPageFault) :
    ∃ s' a' r ps, s.handlePageFault fault a = some (s', a', r) ∧ s'.Filled ∧ Spent out a a' ps r ∧
      (ps = [] ↔ ¬ s.LosesPages a fault) := by
  cases hm : s.vmas (pidOf fault) with
  | some m =>
    have hknown : (s.processes.get (pidOf fault)).isNone = false := by
      obtain ⟨st, hst, -⟩ := Option.map_eq_some_iff.mp hm
      rw [hst]
      rfl
    obtain ⟨s', a', r, ps, hrun, hs', hspent, hps⟩ := h.onVmas_resolve fault ha hm
    refine ⟨s', a', r, ps, ?_, hs', hspent, ?_⟩
    · rw [MmServer.handlePageFault, hknown]
      simp only [Bool.false_eq_true, if_false, hrun, Option.bind_eq_bind, Option.bind_some]
      rfl
    · rw [hps, MmServer.LosesPages, hm]
      simp only [Option.some_inj, exists_eq_left']
  | none =>
    have hunknown : (s.processes.get (pidOf fault)).isNone = true := by
      rw [Option.map_eq_none_iff.mp hm]
      rfl
    have hloses : ¬ s.LosesPages a fault := by
      rintro ⟨-, m, hm', -⟩
      rw [hm] at hm'
      cases hm'
    have hs₁ := h.registerProcess (pidOf fault) fault.addrSpaceId
    rcases vmas_registerProcess fault.addrSpaceId hm with hm₁ | hm₁
    · -- the table of processes is full
      refine ⟨_, a, .error .noVma, [], ?_, hs₁, spent_nothing ha _, iff_of_true rfl hloses⟩
      rw [MmServer.handlePageFault, hunknown]
      simp only [if_true, onVmas_of_none hm₁, Option.bind_eq_bind, Option.bind_some]
      rfl
    · obtain ⟨s', a', r, ps, hrun, hs', hspent, hps⟩ := hs₁.onVmas_resolve fault ha hm₁
      have hnone : ps = [] := hps.mpr fun hreach => not_reachesOn_new fault hreach.2
      refine ⟨s', a', r, ps, ?_, hs', hspent, iff_of_true hnone hloses⟩
      rw [MmServer.handlePageFault, hunknown]
      simp only [if_true, hrun, Option.bind_eq_bind, Option.bind_some]
      rfl

end Filled

end MmServer

/-! ## One fault -/

section OneFault

variable {a a' : Allocator} {out : List (ℕ × ℕ)} {ps : List ℕ} {r : Except MmError MmRequest}

/-- The pages that go out were free, and those beside the reply are not in it. -/
theorem Spent.free_iff (h : Spent out a a' ps r) (ha : a.HandedOut out) :
    (∀ q, a'.Free q ↔ a.Free q ∧ q ∉ ps ∧ q ∉ repliedPages r) ∧
      (∀ q ∈ ps ++ repliedPages r, a.Free q) ∧ ∀ q ∈ ps, q ∉ repliedPages r := by
  obtain ⟨hout, htotal⟩ := h
  obtain ⟨hnodup, hpages⟩ := hout.pages
  refine ⟨fun q => ?_, fun q hq => ?_, fun q hq hq' => ?_⟩
  · have hcovers : (∀ block ∈ (ps ++ repliedPages r).map (·, 0), covers q block = false) ↔
        q ∉ ps ∧ q ∉ repliedPages r := by
      simp only [List.mem_map, forall_exists_index, and_imp, forall_apply_eq_imp_iff₂,
        ← Bool.not_eq_true, Allocator.covers_page, List.mem_append]
      constructor
      · intro h
        exact ⟨fun hq => h q (Or.inl hq) rfl, fun hq => h q (Or.inr hq) rfl⟩
      · rintro ⟨hps, hr⟩ p (hp | hp) rfl
        · exact hps hp
        · exact hr hp
    rw [hout.free_iff, ha.free_iff, htotal, List.forall_mem_append, hcovers]
    tauto
  · rw [ha.free_iff, ← htotal]
    exact hpages q hq
  · exact (List.nodup_append.mp hnodup).2.2 q hq q hq' rfl

/-- The pages that are missing afterwards. -/
theorem Spent.missing_iff (h : Spent out a a' ps r) (ha : a.HandedOut out) (q : ℕ) :
    a'.Missing q ↔ a.Missing q ∨ q ∈ ps ∨ q ∈ repliedPages r := by
  obtain ⟨hfree, hwas, -⟩ := h.free_iff ha
  have hmanaged : q ∈ ps ∨ q ∈ repliedPages r → q < a.totalPages := fun hq =>
    (ha.free_iff.mp (hwas q (List.mem_append.mpr hq))).1
  rw [Allocator.Missing, Allocator.Missing, hfree, h.2]
  tauto

/-- Every page that the fault takes is in the reply. -/
def MmServer.LosesNone (s : MmServer) (a : Allocator) (fault : IpcPageFault) : Prop :=
  ∃ s' a' r, s.handlePageFault fault a = some (s', a', r) ∧
    ∀ q, a.Free q → ¬ a'.Free q → q ∈ repliedPages r

/-- **One fault loses no page just when it does not reach on.** -/
theorem MmServer.losesNone_iff {s : MmServer} (h : s.Filled) (ha : a.HandedOut out)
    (fault : IpcPageFault) : s.LosesNone a fault ↔ ¬ s.LosesPages a fault := by
  obtain ⟨s', a', r, ps, hrun, -, hspent, hps⟩ := h.handlePageFault_spec ha fault
  obtain ⟨hfree, hwas, hbeside⟩ := hspent.free_iff ha
  rw [← hps]
  constructor
  · rintro ⟨s₁, a₁, r₁, hrun₁, hnone⟩
    rw [hrun] at hrun₁
    cases hrun₁
    refine List.eq_nil_iff_forall_not_mem.mpr fun q hq => hbeside q hq ?_
    have hgone : ¬ a'.Free q := fun h => ((hfree q).mp h).2.1 hq
    exact hnone q (hwas q (List.mem_append_left _ hq)) hgone
  · rintro rfl
    refine ⟨s', a', r, hrun, fun q hq hgone => ?_⟩
    by_contra hnot
    exact hgone ((hfree q).mpr ⟨hq, List.not_mem_nil, hnot⟩)

end OneFault

/-! ## The system -/

/-- The memory server, the allocator it takes pages from, and its answers to faults so far. -/
structure MmSystem where
  server : MmServer
  allocator : Allocator
  sent : List (Except MmError MmRequest)

/-- The calls of `MmServer`. -/
inductive MmCall
  | registerProcess (pid addrSpaceId : ℕ)
  | unregisterProcess (pid : ℕ)
  | initProcessVma (pid : ℕ) (layout : Layout)
  | mmap (pid start stop : ℕ) (perms : VmPerms)
  | munmap (pid start stop : ℕ)
  | brk (pid newBrk : ℕ)
  | setPrefault (enabled : Bool)
  | setOomPolicy (policy : OomPolicy)
  | pageFault (fault : IpcPageFault)

namespace MmSystem

/-- Nothing has been sent. -/
def start (server : MmServer) (allocator : Allocator) : MmSystem := ⟨server, allocator, []⟩

/-- The server after a call other than a fault, which works on no pages. -/
def serverStep (s : MmServer) : MmCall → Option MmServer
  | .registerProcess pid asid => some (s.registerProcess pid asid).1
  | .unregisterProcess pid => some (s.unregisterProcess pid)
  | .initProcessVma pid layout => (s.initProcessVma pid layout).map Prod.fst
  | .mmap pid start stop perms => (s.handleMmap pid start stop perms).map Prod.fst
  | .munmap pid start stop => (s.handleMunmap pid start stop).map Prod.fst
  | .brk pid newBrk => (s.handleBrk pid newBrk).map Prod.fst
  | .setPrefault enabled => some (s.setPrefault enabled)
  | .setOomPolicy policy => some (s.setOomPolicy policy)
  | .pageFault _ => some s

/-- One call. -/
def step (y : MmSystem) : MmCall → Option MmSystem
  | .pageFault fault => do
    let (s, a, r) ← y.server.handlePageFault fault y.allocator
    return ⟨s, a, y.sent ++ [r]⟩
  | call => do
    let s ← serverStep y.server call
    return { y with server := s }

/-- The pages missing from the allocator are those that were at the start, in `a₀`, and those handed
to the kernel in replies. -/
def Conserves (a₀ : Allocator) (y : MmSystem) : Prop :=
  ∀ q, y.allocator.Missing q ↔ a₀.Missing q ∨ q ∈ y.sent.flatMap repliedPages

/-- The condition of a call: a fault does not reach on. -/
def Safe (y : MmSystem) : MmCall → Prop
  | .pageFault fault => ¬ y.server.LosesPages y.allocator fault
  | _ => True

/-- The invariant of a run. -/
def Ready (y : MmSystem) : Prop := y.server.Filled ∧ ∃ out, y.allocator.HandedOut out

section Runs

variable {y : MmSystem} {a₀ : Allocator}

/-- A call other than a fault comes back. -/
theorem serverStep_spec {s : MmServer} (h : s.Filled) (call : MmCall) :
    ∃ s', serverStep s call = some s' ∧ s'.Filled := by
  have honVmas : ∀ {α : Type} {f : VmaManager → Option (VmaManager × Except MmError α)} (pid : ℕ),
      (∀ m, m.Filled → Kept (f m)) → ∃ s', (s.onVmas pid f).map Prod.fst = some s' ∧ s'.Filled := by
    intro α f pid hf
    obtain ⟨s', r, hrun, hs'⟩ := h.onVmas pid hf
    exact ⟨s', by rw [hrun]; rfl, hs'⟩
  cases call with
  | registerProcess pid asid => exact ⟨_, rfl, h.registerProcess pid asid⟩
  | unregisterProcess pid => exact ⟨_, rfl, h.unregisterProcess pid⟩
  | initProcessVma pid layout => exact honVmas pid fun m hm => hm.insertAll layout.areas
  | mmap pid start stop perms => exact honVmas pid fun m hm => hm.insert (.newMmap start stop perms)
  | munmap pid start stop => exact honVmas pid fun m hm => hm.remove start stop
  | brk pid newBrk => exact honVmas pid fun m hm => hm.brk newBrk
  | setPrefault enabled => exact ⟨_, rfl, h⟩
  | setOomPolicy policy => exact ⟨_, rfl, h⟩
  | pageFault fault => exact ⟨s, rfl, h⟩

/-- **What one call does to the pages.** -/
theorem Ready.step (hy : y.Ready) (hc : y.Conserves a₀) (call : MmCall) :
    ∃ y', y.step call = some y' ∧ y'.Ready ∧ (y'.Conserves a₀ ↔ y.Safe call) := by
  obtain ⟨hs, out, ha⟩ := hy
  have hserver := serverStep_spec hs call
  cases call with
  | pageFault fault =>
    obtain ⟨s', a', r, ps, hrun, hs', hspent, hps⟩ := hs.handlePageFault_spec ha fault
    refine ⟨⟨s', a', y.sent ++ [r]⟩, ?_, ⟨hs', _, hspent.1⟩, ?_⟩
    · rw [MmSystem.step, hrun]
      rfl
    · show _ ↔ ¬ y.server.LosesPages y.allocator fault
      rw [← hps]
      have hpages : ∀ q, q ∈ (y.sent ++ [r]).flatMap repliedPages ↔
          q ∈ y.sent.flatMap repliedPages ∨ q ∈ repliedPages r := by
        intro q
        rw [List.flatMap_append, List.mem_append, List.flatMap_singleton]
      constructor
      · intro hc'
        -- a page of the batch is missing, but neither was it before nor is it in a reply
        refine List.eq_nil_iff_forall_not_mem.mpr fun q hq => ?_
        obtain ⟨-, hwas, hbeside⟩ := hspent.free_iff ha
        have hmissing := (hspent.missing_iff ha q).mpr (Or.inr (Or.inl hq))
        have hfree : ¬ y.allocator.Missing q := fun h => h.2 (hwas q (List.mem_append_left _ hq))
        rcases (hc' q).mp hmissing with h | h
        · exact hfree ((hc q).mpr (Or.inl h))
        · rcases (hpages q).mp h with h | h
          · exact hfree ((hc q).mpr (Or.inr h))
          · exact hbeside q hq h
      · rintro rfl q
        rw [hspent.missing_iff ha q, hc q, hpages q]
        simp only [List.not_mem_nil, false_or, or_assoc]
  | registerProcess | unregisterProcess | initProcessVma | mmap | munmap | brk | setPrefault
  | setOomPolicy =>
    obtain ⟨s', hs', hfilled⟩ := hserver
    refine ⟨{ y with server := s' }, ?_, ⟨hfilled, out, ha⟩, iff_of_true hc trivial⟩
    simp only [MmSystem.step, hs']
    rfl

/-- The pages are conserved all along a run just when no fault of it reaches on. -/
theorem Ready.conserves_iff (hy : y.Ready) (hc : y.Conserves a₀) (calls : List MmCall) :
    (∀ pre, pre <+: calls → ∃ y', pre.foldlM MmSystem.step y = some y' ∧ y'.Conserves a₀) ↔
      Run.AlongSome MmSystem.step MmSystem.Safe y calls :=
  Run.forall_prefix_iff_alongSome (I := MmSystem.Ready) (fun _ call hy hc => hy.step hc call) hy hc
    calls

theorem conserves_start (s : MmServer) (a : Allocator) : (start s a).Conserves a := by
  intro q
  simp only [start, List.flatMap_nil, List.not_mem_nil, or_false]

end Runs

end MmSystem

/-- **No page is lost just as long as no fault reaches on.**  One fault puts every page it takes into
its reply if and only if it does not reach for a second one; and in a run the pages missing from the
allocator are all the time those handed out in replies, if and only if no fault of the run does. -/
theorem prefault_conserves_iff {s : MmServer} {a : Allocator} {out : List (ℕ × ℕ)} (hs : s.Filled)
    (ha : a.HandedOut out) :
    (∀ fault, s.LosesNone a fault ↔ ¬ s.LosesPages a fault) ∧
      ∀ calls, (∀ pre, pre <+: calls → ∃ y, pre.foldlM MmSystem.step (.start s a) = some y ∧
          y.Conserves a) ↔
        Run.AlongSome MmSystem.step MmSystem.Safe (.start s a) calls := by
  refine ⟨fun fault => MmServer.losesNone_iff hs ha fault, fun calls => ?_⟩
  have hready : (MmSystem.start s a).Ready := ⟨hs, out, ha⟩
  exact hready.conserves_iff (MmSystem.conserves_start s a) calls

theorem handedOut_sixPages : sixPages.HandedOut [] := by
  obtain ⟨a, ha, hout⟩ := Allocator.handedOut_init 0x80000000 0x6000
  rw [sixPages, ha]
  exact hout

/-- With prefaulting on, a process with two pages of memory loads from an address. -/
def loadAt (vaddr : ℕ) : List MmCall :=
  [.registerProcess 1 1, .mmap 1 0x1000 0x3000 .rw, .setPrefault true, .pageFault ⟨1, vaddr, .load⟩]

/-- The last page of the area is in the reply, and there is none behind it. -/
theorem prefault_conserves_last :
    ∃ y, (loadAt 0x2800).foldlM MmSystem.step (.start (.new 0) sixPages) = some y ∧
      y.Conserves sixPages := by
  refine ((prefault_conserves_iff (MmServer.filled_new 0) handedOut_sixPages).2 _).mpr ?_
    (loadAt 0x2800) (List.prefix_refl _)
  refine ⟨trivial, fun y₁ h₁ => ⟨trivial, fun y₂ h₂ => ⟨trivial, fun y₃ h₃ => ⟨?_, ?_⟩⟩⟩⟩
  · cases h₁
    cases h₂
    cases h₃
    rintro ⟨-, m, hm, ⟨x, ⟨⟨m', hlocate⟩, -⟩, hbehind⟩, -⟩
    cases hm
    cases hlocate
    exact absurd hbehind (by decide)
  · exact fun _ _ => trivial

/-- **With prefaulting on, the second page of the area is lost**: it leaves the allocator, and the
only reply hands out page 3. -/
theorem prefault_loses_page :
    (∃ y, (loadAt 0x1800).foldlM MmSystem.step (.start (.new 0) sixPages) = some y ∧
      y.sent = [.ok (.mapSingle 1 0x1800 3 22)] ∧ ¬ y.Conserves sixPages) ∧
    ∃ s : MmServer, s.Filled ∧ ¬ s.LosesNone sixPages ⟨1, 0x1800, .load⟩ := by
  have hregistered := (MmServer.filled_new 0).registerProcess 1 1
  obtain ⟨s, hs, hmapped⟩ := MmSystem.serverStep_spec hregistered (.mmap 1 0x1000 0x3000 .rw)
  have hfilled : (s.setPrefault true).Filled := hmapped
  have hready : (MmSystem.start (s.setPrefault true) sixPages).Ready :=
    ⟨hfilled, [], handedOut_sixPages⟩
  have hloses : (s.setPrefault true).LosesPages sixPages ⟨1, 0x1800, .load⟩ := by
    have hfree : ∀ q < 6, sixPages.Free q := fun q hq =>
      handedOut_sixPages.free_iff.mpr ⟨hq, fun _ h => nomatch h⟩
    cases hs
    refine ⟨rfl, _, rfl, ⟨.newMmap 0x1000 0x3000 .rw, ⟨⟨_, rfl⟩, rfl⟩, by decide⟩, 0, 1, by decide, ?_, ?_⟩
    · exact hfree 0 (by decide)
    · exact hfree 1 (by decide)
  obtain ⟨y, hy, -, hiff⟩ := hready.step (MmSystem.conserves_start _ _) (.pageFault ⟨1, 0x1800, .load⟩)
  refine ⟨⟨y, ?_, ?_, fun hc => hiff.mp hc hloses⟩, s.setPrefault true, hfilled, ?_⟩
  · cases hs
    exact hy
  · cases hs
    cases hy
    rfl
  · rw [MmServer.losesNone_iff hfilled handedOut_sixPages]
    exact not_not.mpr hloses

end QuackOS.Vm
