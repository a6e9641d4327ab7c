import QuackOS.Lib.Run
import QuackOS.Linux.Task

/-!
# Children and their process ids

A Linux task numbers its children itself: `alloc_child_pid` and `take_child_pid` of
`liblinux/src/task.rs` keep a table of sixteen pairs of a kernel thread id and a process id, and
`sys_clone` and `sys_wait4` of `liblinux/src/proc.rs` translate between the two.

* `ChildPids` — the table;
* `Family` — a task with the children it has not waited for;
* `family_agrees` — what `sys_wait4` returns for a child is what `sys_clone` returned for it, in
  every run with at most sixteen children at once.
-/

namespace QuackOS.Linux

open Bytes

/-- The fields of `TaskStruct` that number the children; entries of `tid_to_pid` from `count` on
are not in use. -/
structure ChildPids where
  nextPid : Word
  tidToPid : ℕ → BitVec 32 × Word
  count : ℕ

namespace ChildPids

/-- The length of `tid_to_pid`. -/
def tidToPidLen : ℕ := 16

/-- The fields as `TaskStruct::new` sets them. -/
def new : ChildPids := { nextPid := 2, tidToPid := fun _ => (0, 0), count := 0 }

/-- `alloc_child_pid`: a full table drops the mapping. -/
def allocChildPid (t : ChildPids) (tid : BitVec 32) : Word × ChildPids :=
  if t.count < tidToPidLen then
    (t.nextPid,
      { nextPid := t.nextPid + 1
        tidToPid := Function.update t.tidToPid t.count (tid, t.nextPid)
        count := t.count + 1 })
  else (t.nextPid, { t with nextPid := t.nextPid + 1 })

/-- `take_child_pid`: the entry is replaced by the last one. -/
def takeChildPid (t : ChildPids) (tid : BitVec 32) : Option Word × ChildPids :=
  match (List.range t.count).find? fun i => (t.tidToPid i).1 = tid with
  | none => (none, t)
  | some i =>
      (some (t.tidToPid i).2,
        { t with
          count := t.count - 1
          tidToPid := Function.update t.tidToPid i (t.tidToPid (t.count - 1)) })

/-- `sys_clone`, with what `native::clone` returned. -/
def sysClone (t : ChildPids) (ret : Word) : Word × ChildPids :=
  if ret.toInt ≤ 0 then (ret, t) else t.allocChildPid (ret.setWidth 32)

/-- `sys_wait4`, with what its calls of `native::wait4` return in turn, `EAGAIN` while no child has
exited; it does not return while they run out. -/
def sysWait4 (t : ChildPids) (mem : Mem) (wstatus options : Word) :
    List (Word × Word) → Option (Word × ChildPids × Mem)
  | [] => none
  | (ret, status) :: answers =>
      if ret = errnoWord eagain then
        if options &&& 1 ≠ 0 then some (0, t, mem) else sysWait4 t mem wstatus options answers
      else if ret.toInt < 0 then some (ret, t, mem)
      else
        let (pid, t) := t.takeChildPid (ret.setWidth 32)
        some (pid.getD ret, t, if wstatus ≠ 0 then writeBytes 4 mem wstatus status else mem)

/-- The mappings in use. -/
def entries (t : ChildPids) : List (BitVec 32 × Word) := Slots.initial t.count t.tidToPid

theorem allocChildPid_fst (t : ChildPids) (tid : BitVec 32) :
    (t.allocChildPid tid).1 = t.nextPid := by
  unfold allocChildPid
  split <;> rfl

theorem entries_allocChildPid {t : ChildPids} (h : t.count < tidToPidLen) (tid : BitVec 32) :
    (t.allocChildPid tid).2.entries = t.entries ++ [(tid, t.nextPid)] := by
  rw [allocChildPid, if_pos h]
  exact Slots.initial_push (tid, t.nextPid)

/-- A mapping in use is found and removed. -/
theorem takeChildPid_of_mem {t : ChildPids} {tid : BitVec 32} (h : tid ∈ t.entries.map Prod.fst) :
    ∃ pid, (t.takeChildPid tid).1 = some pid ∧
      ((tid, pid) :: (t.takeChildPid tid).2.entries).Perm t.entries := by
  unfold takeChildPid
  cases hf : (List.range t.count).find? fun i => (t.tidToPid i).1 = tid with
  | none =>
    exfalso
    obtain ⟨p, hp, rfl⟩ := List.mem_map.mp h
    obtain ⟨i, hi, rfl⟩ := Slots.mem_initial.mp hp
    simpa using List.find?_eq_none.mp hf i (List.mem_range.mpr hi)
  | some i =>
    have hi : i < t.count := List.mem_range.mp (List.mem_of_find?_eq_some hf)
    have htid : (t.tidToPid i).1 = tid := by simpa using List.find?_some hf
    obtain ⟨n, hn⟩ : ∃ n, t.count = n + 1 := ⟨t.count - 1, by omega⟩
    refine ⟨(t.tidToPid i).2, rfl, ?_⟩
    rw [← htid]
    simp only [entries, hn, Nat.add_sub_cancel]
    have hlt : i < n + 1 := hn ▸ hi
    exact Slots.initial_swapRemove (g := t.tidToPid) hlt

end ChildPids

/-! ## Runs of clone and wait4 -/

/-- A call of the parent, with what the kernel answers. -/
inductive FamilyCall
  | clone (ret : Word)
  | wait4 (wstatus options : Word) (answers : List (Word × Word))

/-- A task, and its children not yet waited for: the kernel's thread id of each and what
`sys_clone` returned for it. -/
structure Family where
  pids : ChildPids
  mem : Mem
  outstanding : List (BitVec 32 × Word)

namespace Family

open ChildPids

/-- A task without children. -/
def start (mem : Mem) : Family := { pids := ChildPids.new, mem, outstanding := [] }

/-- The child that the kernel gives to a `sys_wait4`. -/
def reaped (options : Word) : List (Word × Word) → Option (BitVec 32)
  | [] => none
  | (ret, _) :: answers =>
      if ret = errnoWord eagain then if options &&& 1 ≠ 0 then none else reaped options answers
      else if ret.toInt < 0 then none
      else some (ret.setWidth 32)

/-- One call. -/
def step (s : Family) : FamilyCall → Family
  | .clone ret =>
      { s with
        pids := (s.pids.sysClone ret).2
        outstanding :=
          if ret.toInt ≤ 0 then s.outstanding
          else (ret.setWidth 32, (s.pids.sysClone ret).1) :: s.outstanding }
  | .wait4 wstatus options answers =>
      match s.pids.sysWait4 s.mem wstatus options answers with
      | none => s
      | some (_, pids, mem) =>
          { pids, mem
            outstanding := (reaped options answers).elim s.outstanding fun tid =>
              s.outstanding.filter fun c => c.1 ≠ tid }

/-- What the kernel promises: a new child has a thread id that no child not yet reaped has, and
the child that `wait4` returns is one of these. -/
def KernelDistinct (s : Family) : FamilyCall → Prop
  | .clone ret => 0 < ret.toInt → ret.setWidth 32 ∉ s.outstanding.map Prod.fst
  | .wait4 _ options answers =>
      ∀ tid, reaped options answers = some tid → tid ∈ s.outstanding.map Prod.fst

/-- A new child finds a free entry in the table, and the 64-bit counter has not come round to the
id of a child still there. -/
def HasRoom (s : Family) : FamilyCall → Prop
  | .clone ret => 0 < ret.toInt →
      s.outstanding.length < tidToPidLen ∧ s.pids.nextPid ∉ s.outstanding.map Prod.snd
  | .wait4 .. => True

/-- `sys_wait4` returns for the child it reaps what `sys_clone` returned for that child. -/
def Agrees (s : Family) : FamilyCall → Prop
  | .clone _ => True
  | .wait4 wstatus options answers => ∀ tid pid, reaped options answers = some tid →
      (tid, pid) ∈ s.outstanding →
        ∃ pids mem, s.pids.sysWait4 s.mem wstatus options answers = some (pid, pids, mem)

/-- The table holds the mapping of every child, and ids are not shared. -/
structure Inv (s : Family) : Prop where
  mapped : s.pids.entries.Perm s.outstanding
  tids : (s.outstanding.map Prod.fst).Nodup
  pids : (s.outstanding.map Prod.snd).Nodup

theorem Inv.count {s : Family} (h : s.Inv) : s.pids.count = s.outstanding.length := by
  have hlen := h.mapped.length_eq
  rwa [entries, Slots.initial, List.length_map, List.length_range] at hlen

theorem inv_start (mem : Mem) : (start mem).Inv where
  mapped := List.Perm.refl _
  tids := List.nodup_nil
  pids := List.nodup_nil

theorem Inv.clone {s : Family} (h : s.Inv) {ret : Word} (hk : s.KernelDistinct (.clone ret))
    (hr : s.HasRoom (.clone ret)) : (s.step (.clone ret)).Inv := by
  by_cases hret : ret.toInt ≤ 0
  · simpa only [step, sysClone, if_pos hret] using h
  · have hpos : 0 < ret.toInt := by omega
    obtain ⟨hlen, hnext⟩ := hr hpos
    have hroom : s.pids.count < tidToPidLen := h.count ▸ hlen
    simp only [step, sysClone, if_neg hret, allocChildPid_fst]
    refine ⟨?_, List.nodup_cons.mpr ⟨hk hpos, h.tids⟩, List.nodup_cons.mpr ⟨hnext, h.pids⟩⟩
    simp only [entries_allocChildPid hroom]
    exact (List.perm_append_singleton ..).trans (h.mapped.cons _)

/-- A `sys_wait4` that reaps a child. -/
theorem sysWait4_of_reaped (t : ChildPids) (mem : Mem) (wstatus : Word) {options : Word}
    {answers : List (Word × Word)} {tid : BitVec 32} (h : reaped options answers = some tid) :
    ∃ ret mem', t.sysWait4 mem wstatus options answers =
      some ((t.takeChildPid tid).1.getD ret, (t.takeChildPid tid).2, mem') := by
  induction answers with
  | nil => cases h
  | cons a answers ih =>
    obtain ⟨ret, status⟩ := a
    unfold reaped at h
    unfold sysWait4
    by_cases hagain : ret = errnoWord eagain
    · rw [if_pos hagain] at h ⊢
      by_cases hnohang : options &&& 1 ≠ 0
      · rw [if_pos hnohang] at h
        cases h
      · rw [if_neg hnohang] at h ⊢
        exact ih h
    · rw [if_neg hagain] at h ⊢
      by_cases hneg : ret.toInt < 0
      · rw [if_pos hneg] at h
        cases h
      · rw [if_neg hneg] at h ⊢
        cases h
        exact ⟨_, _, rfl⟩

/-- A `sys_wait4` that reaps no child leaves the table alone. -/
theorem sysWait4_of_not_reaped {t t' : ChildPids} {mem mem' : Mem} {wstatus options r : Word}
    {answers : List (Word × Word)} (h : reaped options answers = none)
    (hw : t.sysWait4 mem wstatus options answers = some (r, t', mem')) : t' = t := by
  induction answers with
  | nil => cases hw
  | cons a answers ih =>
    obtain ⟨ret, status⟩ := a
    unfold reaped at h
    unfold sysWait4 at hw
    by_cases hagain : ret = errnoWord eagain
    · rw [if_pos hagain] at h hw
      by_cases hnohang : options &&& 1 ≠ 0
      · rw [if_pos hnohang] at hw
        cases hw
        rfl
      · rw [if_neg hnohang] at h hw
        exact ih h hw
    · rw [if_neg hagain] at h hw
      by_cases hneg : ret.toInt < 0
      · rw [if_pos hneg] at hw
        cases hw
        rfl
      · rw [if_neg hneg] at h
        cases h

/-- What is left of a list of pairs when the only pair with a key goes. -/
theorem perm_filter_fst {l rest : List (BitVec 32 × Word)} {c : BitVec 32 × Word}
    (h : (c :: rest).Perm l) (hl : (l.map Prod.fst).Nodup) :
    rest.Perm (l.filter fun x => x.1 ≠ c.1) := by
  have hnodup : ((c :: rest).map Prod.fst).Nodup := (h.map Prod.fst).nodup_iff.mpr hl
  have hc : ∀ x ∈ rest, x.1 ≠ c.1 := fun x hx hxc =>
    (List.nodup_cons.mp hnodup).1 (hxc ▸ List.mem_map_of_mem hx)
  have hfilter := h.filter fun x => x.1 ≠ c.1
  rw [List.filter_cons_of_neg (by simp), List.filter_eq_self.mpr (by simpa using hc)] at hfilter
  exact hfilter

/-- The child that a `sys_wait4` reaps, its process id and what stays in the table. -/
theorem Inv.takeChildPid {s : Family} (h : s.Inv) {tid : BitVec 32}
    (htid : tid ∈ s.outstanding.map Prod.fst) :
    ∃ pid, (tid, pid) ∈ s.outstanding ∧ (s.pids.takeChildPid tid).1 = some pid ∧
      (s.pids.takeChildPid tid).2.entries.Perm (s.outstanding.filter fun c => c.1 ≠ tid) := by
  have hmem : tid ∈ s.pids.entries.map Prod.fst := (h.mapped.map Prod.fst).mem_iff.mpr htid
  obtain ⟨pid, hpid, hperm⟩ := takeChildPid_of_mem hmem
  have hall := hperm.trans h.mapped
  exact ⟨pid, hall.subset (List.mem_cons_self ..), hpid, perm_filter_fst hall h.tids⟩

theorem Inv.wait4 {s : Family} (h : s.Inv) {wstatus options : Word}
    {answers : List (Word × Word)} (hk : s.KernelDistinct (.wait4 wstatus options answers)) :
    (s.step (.wait4 wstatus options answers)).Inv := by
  cases hre : reaped options answers with
  | none =>
    unfold step
    cases hw : s.pids.sysWait4 s.mem wstatus options answers with
    | none => simpa only [hw] using h
    | some r =>
      obtain ⟨ret, pids, mem⟩ := r
      have hsame := sysWait4_of_not_reaped hre hw
      subst hsame
      simpa only [hw, hre] using ⟨h.mapped, h.tids, h.pids⟩
  | some tid =>
    obtain ⟨ret, mem', hw⟩ := sysWait4_of_reaped s.pids s.mem wstatus hre
    obtain ⟨pid, -, -, hperm⟩ := h.takeChildPid (hk tid hre)
    have hsub : (s.outstanding.filter fun c => c.1 ≠ tid).Sublist s.outstanding :=
      List.filter_sublist
    simp only [step, hw, hre, Option.elim_some]
    exact ⟨hperm, h.tids.sublist (hsub.map _), h.pids.sublist (hsub.map _)⟩

theorem Inv.step {s : Family} (h : s.Inv) {c : FamilyCall} (hk : s.KernelDistinct c)
    (hr : s.HasRoom c) : (s.step c).Inv := by
  cases c with
  | clone ret => exact h.clone hk hr
  | wait4 wstatus options answers => exact h.wait4 hk

theorem Inv.agrees {s : Family} (h : s.Inv) {c : FamilyCall} (hk : s.KernelDistinct c) :
    s.Agrees c := by
  cases c with
  | clone ret => trivial
  | wait4 wstatus options answers =>
    intro tid pid hre hpid
    obtain ⟨ret, mem', hw⟩ := sysWait4_of_reaped s.pids s.mem wstatus hre
    obtain ⟨pid', hpid', htake, -⟩ := h.takeChildPid (hk tid hre)
    -- a thread id names one child only
    have heq : (tid, pid') = (tid, pid) := List.inj_on_of_nodup_map h.tids hpid' hpid rfl
    rw [htake, Option.getD_some, (Prod.mk.inj heq).2] at hw
    exact ⟨_, _, hw⟩

/-- **Fork and wait agree.**  In every run in which each new child finds room in the table,
`sys_wait4` returns for a child what `sys_clone` returned for it, and children not yet waited for
have different process ids. -/
theorem family_agrees {mem : Mem} {calls : List FamilyCall}
    (hk : Run.Along step KernelDistinct (start mem) calls)
    (hr : Run.Along step HasRoom (start mem) calls) :
    Run.Along step Agrees (start mem) calls ∧ ∀ pre, pre <+: calls →
      ((Run.exec step (start mem) pre).outstanding.map Prod.snd).Nodup := by
  have hstep : ∀ s c, Inv s → KernelDistinct s c ∧ HasRoom s c → Inv (step s c) :=
    fun s c hs hc => hs.step hc.1 hc.2
  have hC := Run.along_and hk hr
  refine ⟨Run.along_of_invariant hstep (fun s c hs hc => hs.agrees hc.1) (inv_start mem) hC, ?_⟩
  intro pre hpre
  exact (Run.exec_invariant_prefix hstep (inv_start mem) hC hpre).pids

/-- Two children, the second waited for first. -/
def twoChildren : List FamilyCall :=
  [.clone 0x10003, .clone 0x10004, .wait4 0 0 [(errnoWord eagain, 0), (0x10004, 0x100)],
    .wait4 0 0 [(0x10003, 0)]]

instance (s : Family) : DecidablePred s.KernelDistinct
  | .clone _ => inferInstanceAs (Decidable (_ → _))
  | .wait4 _ options answers =>
      match h : reaped options answers with
      | none => isTrue fun tid ht => by rw [h] at ht; cases ht
      | some tid => decidable_of_iff (tid ∈ s.outstanding.map Prod.fst)
          (by simp only [KernelDistinct, h, Option.some.injEq, forall_eq'])

instance (s : Family) : DecidablePred s.HasRoom
  | .clone _ => inferInstanceAs (Decidable (_ → _))
  | .wait4 .. => isTrue trivial

theorem family_agrees_twoChildren :
    Run.Along step Agrees (start fun _ => 0) twoChildren ∧ ∀ pre, pre <+: twoChildren →
      ((Run.exec step (start fun _ => 0) pre).outstanding.map Prod.snd).Nodup :=
  family_agrees (by decide +kernel) (by decide +kernel)

/-- Seventeen children, of which the last is waited for. -/
def seventeenChildren : List FamilyCall :=
  (List.range 17).map (fun i => .clone (BitVec.ofNat 64 (0x10003 + i))) ++
    [.wait4 0 0 [(0x10013, 0)]]

/-- The seventeenth child has no entry: `sys_clone` returned 18 for it, `sys_wait4` returns the
kernel's thread id. -/
theorem seventeenth_child_disagrees :
    ¬ ∀ (mem : Mem) (calls : List FamilyCall), Run.Along step KernelDistinct (start mem) calls →
      Run.Along step Agrees (start mem) calls ∧ ∀ pre, pre <+: calls →
        ((Run.exec step (start mem) pre).outstanding.map Prod.snd).Nodup := by
  intro h
  have hall := (h (fun _ => 0) seventeenChildren (by decide +kernel)).1
  rw [seventeenChildren, Run.along_append] at hall
  obtain ⟨pids, mem, hw⟩ := hall.2.1 0x10013 18 (by decide +kernel) (by decide +kernel)
  have hret := congrArg (Option.map Prod.fst) hw
  simp only [Option.map_some] at hret
  revert hret
  decide +kernel

end Family

end QuackOS.Linux
