import QuackOS.Lib.Run
import QuackOS.Linux.Task
import QuackOS.Mm.Calls

/-!
# The memory calls of a Linux task

`sys_brk`, `sys_mmap` and `sys_munmap` of `liblinux/src/mm.rs` and `do_brk` of `task.rs`, on top of
the kernel's `sys_map_page` and `sys_unmap_page`.  liblinux is a release build, so its arithmetic
wraps.  A call of the kernel that panics has no result.
-/

namespace QuackOS.Linux

open Mm (Phys Cpu sysMapPage sysUnmapPage UserTable IsData NoBlock pageLeaf)

/-! ## The calls -/

/-- `(a + page_size - 1) & !(page_size - 1)`. -/
def pageUp (a : Word) : Word := (a + 4095) &&& ~~~4095

/-- `a & !(page_size - 1)`. -/
def pageDown (a : Word) : Word := a &&& ~~~4095

/-- The number of steps of `(start..stop).step_by(page_size)`. -/
def pageSteps (start stop : Word) : ℕ := (stop.toNat - start.toNat + 4095) / 4096

/-- `native::map_page` for some pages from an address on, until a call returns an error.  The
result has the last return value and the address it was for. -/
def mapPages (cpu : Cpu) (prot : ℕ) : ℕ → Word → Phys → Option (ℤ × Word × Phys)
  | 0, va, ph => some (0, va, ph)
  | n + 1, va, ph =>
    match sysMapPage cpu ph va.toNat prot with
    | some (ret, ph) => if ret < 0 then some (ret, va, ph) else mapPages cpu prot n (va + 4096) ph
    | none => none

/-- `native::unmap_page` for some pages from an address on; the return values are ignored. -/
def unmapPages (cpu : Cpu) : ℕ → Word → Phys → Option Phys
  | 0, _, ph => some ph
  | n + 1, va, ph =>
    match sysUnmapPage cpu ph va.toNat with
    | some (_, ph) => unmapPages cpu n (va + 4096) ph
    | none => none

/-- `MAP_ANONYMOUS`. -/
def mapAnonymous : Word := 0x20
/-- `MAP_FIXED`. -/
def mapFixed : Word := 0x10

/-- The address that `sys_mmap` maps at. -/
def mapAddr (task : TaskStruct) (addr flags : Word) : Word :=
  if flags &&& mapFixed ≠ 0 ∧ addr ≠ 0 then addr else task.mmapBase

/-- `sys_mmap`. -/
def sysMmap (cpu : Cpu) (task : TaskStruct) (ph : Phys) (addr length prot flags : Word) :
    Option (Word × TaskStruct × Phys) :=
  if flags &&& mapAnonymous = 0 then some (Errno.word .ENOSYS, task, ph)
  else
    let len := pageUp length
    let base := mapAddr task addr flags
    match mapPages cpu prot.toNat (pageSteps 0 len) base ph with
    | some (ret, va, ph) =>
      if ret < 0 then
        (unmapPages cpu (pageSteps base va) base ph).map fun ph => (Errno.word .ENOMEM, task, ph)
      else some (base, { task with mmapBase := va }, ph)
    | none => none

/-- `sys_munmap`. -/
def sysMunmap (cpu : Cpu) (task : TaskStruct) (ph : Phys) (addr length : Word) :
    Option (Word × TaskStruct × Phys) :=
  if addr = 0 ∨ length = 0 then some (0, task, ph)
  else
    let alignedAddr := pageDown addr
    let len := pageUp (addr + length) - alignedAddr
    (unmapPages cpu (pageSteps alignedAddr (alignedAddr + len)) alignedAddr ph).map
      fun ph => (0, task, ph)

/-- `do_brk`. -/
def doBrk (cpu : Cpu) (task : TaskStruct) (ph : Phys) (newBrk : Word) :
    Option (Except ℤ Word × TaskStruct × Phys) :=
  if newBrk.toNat < task.initialBrk.toNat then some (.ok task.brk, task, ph)
  else if task.brk.toNat < newBrk.toNat then
    let start := pageUp task.brk
    match mapPages cpu 3 (pageSteps start (pageUp newBrk)) start ph with
    | some (ret, _, ph) =>
      if ret < 0 then some (.error ret, task, ph)
      else some (.ok newBrk, { task with brk := newBrk }, ph)
    | none => none
  else if newBrk.toNat < task.brk.toNat then
    let start := pageUp newBrk
    (unmapPages cpu (pageSteps start (pageUp task.brk)) start ph).map
      fun ph => (.ok newBrk, { task with brk := newBrk }, ph)
  else some (.ok newBrk, { task with brk := newBrk }, ph)

/-- `sys_brk`. -/
def sysBrk (cpu : Cpu) (task : TaskStruct) (ph : Phys) (newBrk : Word) :
    Option (Word × TaskStruct × Phys) :=
  if newBrk = 0 then some (task.brk, task, ph)
  else
    (doBrk cpu task ph newBrk).map fun r =>
      match r with
      | (.ok brk, task, ph) => (brk, task, ph)
      | (.error e, task, ph) => (errnoWord e, task, ph)

/-! ## Runs -/

/-- What a task does to its memory. -/
inductive MemOp where
  | mmap (addr length prot flags : Word)
  | munmap (addr length : Word)
  | brk (newBrk : Word)
  | store (va : ℕ) (w : Word)

/-- A task with its memory.  `given` has the pages of the ranges that `sys_mmap` returned and
`sys_munmap` did not take back. -/
structure MemState where
  task : TaskStruct
  ph : Phys
  given : List ℕ

/-- The range of values that a system call returns for an error. -/
def isError (ret : Word) : Bool := 2 ^ 64 - 4095 ≤ ret.toNat

/-- The number of pages that a length needs. -/
def pagesFor (length : Word) : ℕ := (length.toNat + 4095) / 4096

/-- The pages that become given, or are given no longer, by a call. -/
def givenAfter (given : List ℕ) (ret : Word) : MemOp → List ℕ
  | .mmap _ length _ _ =>
    if isError ret then given else given ++ List.range' (ret.toNat / 4096) (pagesFor length)
  | .munmap addr length =>
    if addr = 0 ∨ length = 0 then given
    else given.filter fun p =>
      p * 4096 < (pageDown addr).toNat ∨ (pageUp (addr + length)).toNat ≤ p * 4096
  | _ => given

/-- One call: its result and the state after it. -/
def MemOp.run (cpu : Cpu) (s : MemState) (op : MemOp) : Option (Word × MemState) :=
  let done : Option (Word × TaskStruct × Phys) :=
    match op with
    | .mmap addr length prot flags => sysMmap cpu s.task s.ph addr length prot flags
    | .munmap addr length => sysMunmap cpu s.task s.ph addr length
    | .brk newBrk => sysBrk cpu s.task s.ph newBrk
    | .store va w => some (0, s.task, Mm.userStore cpu s.ph va w)
  done.map fun (ret, task, ph) => (ret, ⟨task, ph, givenAfter s.given ret op⟩)

/-- The state after one call. -/
def MemOp.step (cpu : Cpu) (s : MemState) (op : MemOp) : Option MemState :=
  (op.run cpu s).map Prod.snd

/-! ## Pages of addresses -/

section Words

variable {a b : Word}

theorem toNat_pageDown : (pageDown a).toNat = a.toNat / 4096 * 4096 := by
  have h : pageDown a = a >>> 12 <<< 12 := by
    apply BitVec.eq_of_getLsbD_eq
    intro i hi
    have h12 : (4095 : Word).getLsbD i = decide (i < 12) := by
      rw [show (4095 : Word) = BitVec.ofNat 64 (2 ^ 12 - 1) from rfl, BitVec.getLsbD_ofNat,
        Nat.testBit_two_pow_sub_one]
      simp [hi]
    rw [pageDown, BitVec.getLsbD_and, BitVec.getLsbD_not, h12, BitVec.getLsbD_shiftLeft,
      BitVec.getLsbD_ushiftRight]
    by_cases h : i < 12
    · simp [h]
    · simp [h, hi, show 12 + (i - 12) = i by omega]
  rw [h, BitVec.toNat_shiftLeft, BitVec.toNat_ushiftRight, Nat.shiftRight_eq_div_pow,
    Nat.shiftLeft_eq]
  have := a.isLt
  omega

theorem toNat_pageUp (h : a.toNat ≤ 2 ^ 64 - 4096) :
    (pageUp a).toNat = (a.toNat + 4095) / 4096 * 4096 := by
  rw [show pageUp a = pageDown (a + 4095) from rfl, toNat_pageDown, BitVec.toNat_add,
    show (4095 : Word).toNat = 4095 from rfl, Nat.mod_eq_of_lt (by omega)]

/-- The pages that `sys_mmap` maps, when rounding the length does not wrap. -/
theorem pageSteps_length (h : a.toNat ≤ 2 ^ 64 - 4096) : pageSteps 0 (pageUp a) = pagesFor a := by
  rw [pageSteps, toNat_pageUp h, pagesFor, show (0 : Word).toNat = 0 from rfl]
  omega

end Words

/-! ## The loops -/

/-- The loop of `map_page` calls over `k` pages from the address `v` on. -/
structure MapRun (root : ℕ) (kept : List ℕ) (ph ph' : Phys) (v k : ℕ) : Prop where
  table : UserTable root kept ph'
  aligned : 0 < k → v % 4096 = 0 ∧ v + 4096 * k ≤ 2 ^ 47
  other : ∀ p, p < 2 ^ 36 → (p < v / 4096 ∨ v / 4096 + k ≤ p) →
    pageLeaf ph' root p = pageLeaf ph root p ∨ pageLeaf ph' root p = none
  noBlock : ∀ p, p < 2 ^ 36 → NoBlock ph root p → NoBlock ph' root p

section Loops

variable {cpu : Cpu} {ph ph' : Phys} {root k n prot : ℕ} {kept : List ℕ} {va va' : Word} {ret : ℤ}

/-- The loop ends with an error after some pages, or after all of them. -/
theorem mapPages_cases (h : UserTable root kept ph) (hcpu : Mm.currentPageTable cpu = Mm.view root)
    (hm : mapPages cpu prot n va ph = some (ret, va', ph')) :
    ∃ k ≤ n, mapPages cpu prot k va ph = some (0, va', ph') ∧
      (ret < 0 ∧ k < n ∨ ret = 0 ∧ k = n) := by
  induction n generalizing va ph with
  | zero =>
    cases hm
    exact ⟨0, le_rfl, rfl, Or.inr ⟨rfl, rfl⟩⟩
  | succ n ih =>
    rw [mapPages] at hm
    split at hm
    case h_2 => cases hm
    case h_1 r ph₁ hs =>
    rcases Mm.sysMapPage_spec h hcpu hs with ⟨hr, rfl⟩ | ⟨rfl, -, hcall⟩
    · rw [if_pos hr] at hm
      cases hm
      exact ⟨0, by omega, rfl, Or.inl ⟨hr, by omega⟩⟩
    · rw [if_neg (by decide)] at hm
      obtain ⟨k, hk, hk', hend⟩ := ih hcall.table hm
      refine ⟨k + 1, by omega, ?_, by omega⟩
      rw [mapPages, hs]
      exact hk'

theorem mapPages_one (hs : sysMapPage cpu ph va.toNat prot = some (0, ph')) :
    mapPages cpu prot 1 va ph = some (0, va + 4096, ph') := by
  simp [mapPages, hs]

/-- The address after one more page. -/
theorem toNat_next (h : va.toNat < 2 ^ 47) : (va + 4096).toNat = va.toNat + 4096 := by
  rw [BitVec.toNat_add, show (4096 : Word).toNat = 4096 from rfl, Nat.mod_eq_of_lt (by omega)]

theorem mapPages_spec (h : UserTable root kept ph) (hcpu : Mm.currentPageTable cpu = Mm.view root)
    (hm : mapPages cpu prot k va ph = some (0, va', ph')) :
    MapRun root kept ph ph' va.toNat k ∧ va'.toNat = va.toNat + 4096 * k := by
  induction k generalizing va ph with
  | zero =>
    cases hm
    exact ⟨⟨h, fun h => absurd h (by omega), fun _ _ _ => Or.inl rfl, fun _ _ h => h⟩, rfl⟩
  | succ k ih =>
    rw [mapPages] at hm
    split at hm
    case h_2 => cases hm
    case h_1 r ph₁ hs =>
    rcases Mm.sysMapPage_spec h hcpu hs with ⟨hr, -⟩ | ⟨rfl, hgood, hcall⟩
    · rw [if_pos hr] at hm
      cases hm
      omega
    rw [if_neg (by decide)] at hm
    obtain ⟨hrun, hva⟩ := ih hcall.table hm
    obtain ⟨hal, hlt⟩ := Mm.lt_of_badAddr hgood
    rw [toNat_next hlt] at hrun hva
    refine ⟨⟨hrun.table, fun _ => ⟨hal, ?_⟩, fun p hp hout => ?_, fun p hp hno => ?_⟩, by omega⟩
    · rcases Nat.eq_zero_or_pos k with rfl | hk
      · omega
      · have := (hrun.aligned hk).2
        omega
    · rcases hrun.other p hp (by omega) with h₁ | h₁
      · rw [h₁]
        exact hcall.other p hp (by omega)
      · exact Or.inr h₁
    · apply hrun.noBlock p hp
      -- the page itself ends on the last level now
      by_cases hpv : p = va.toNat / 4096
      · obtain ⟨w, hw⟩ := hcall.mapped
        rw [hpv]
        exact .of_page hw
      · exact .of_kept (hcall.other p hp hpv) hno

/-- **Fresh pages are zero.**  When none of the pages was mapped, the loop maps each of them to a
zero page, and leaves the other pages and what they hold alone. -/
theorem mapPages_fresh (h : UserTable root kept ph) (hcpu : Mm.currentPageTable cpu = Mm.view root)
    (hm : mapPages cpu prot k va ph = some (0, va', ph'))
    (hnone : ∀ p, va.toNat / 4096 ≤ p → p < va.toNat / 4096 + k → pageLeaf ph root p = none) :
    (∀ p, va.toNat / 4096 ≤ p → p < va.toNat / 4096 + k →
      ∃ w, pageLeaf ph' root p = some (3, w) ∧ ph'.page (Mm.Pte.ppn w) = fun _ => 0#64) ∧
    (∀ p, p < 2 ^ 36 → (p < va.toNat / 4096 ∨ va.toNat / 4096 + k ≤ p) →
      pageLeaf ph' root p = pageLeaf ph root p) ∧
    ∀ f, (∃ p w, p < 2 ^ 36 ∧ (p < va.toNat / 4096 ∨ va.toNat / 4096 + k ≤ p) ∧
      pageLeaf ph root p = some (3, w) ∧ Mm.Pte.ppn w = f) → ph'.page f = ph.page f := by
  induction k generalizing va ph with
  | zero =>
    cases hm
    exact ⟨fun p h₁ h₂ => absurd h₂ (by omega), fun _ _ _ => rfl, fun _ _ => rfl⟩
  | succ k ih =>
    rw [mapPages] at hm
    split at hm
    case h_2 => cases hm
    case h_1 r ph₁ hs =>
    rcases Mm.sysMapPage_spec h hcpu hs with ⟨hr, -⟩ | ⟨rfl, hgood, hcall⟩
    · rw [if_pos hr] at hm
      cases hm
      omega
    rw [if_neg (by decide)] at hm
    obtain ⟨hal, hlt⟩ := Mm.lt_of_badAddr hgood
    have hnext := toNat_next hlt
    have hv : (va + 4096).toNat / 4096 = va.toNat / 4096 + 1 := by omega
    have hself : pageLeaf ph root (va.toNat / 4096) = none := hnone _ le_rfl (by omega)
    have hlast : 0 < k → va.toNat + 4096 + 4096 * k ≤ 2 ^ 47 := by
      intro hk
      have := ((mapPages_spec hcall.table hcpu hm).1.aligned hk).2
      omega
    obtain ⟨hmapped, hother, hpages⟩ := ih hcall.table hm fun p h₁ h₂ => by
      rw [hv] at h₁ h₂
      rw [hcall.same_other (.of_none hself) p (by omega) (by omega)]
      exact hnone p (by omega) (by omega)
    rw [hv] at hmapped hother hpages
    refine ⟨fun p h₁ h₂ => ?_, fun p hp hout => ?_, fun f hf => ?_⟩
    · rcases Nat.eq_or_lt_of_le h₁ with rfl | hlt'
      · obtain ⟨w, hw⟩ := hcall.mapped
        refine ⟨w, ?_, ?_⟩
        · rw [hother _ (by omega) (by omega), hw]
        · rw [hpages _ ⟨_, w, by omega, by omega, hw, rfl⟩]
          exact hcall.fresh_zero hself w hw
      · exact hmapped p (by omega) (by omega)
    · rw [hother p hp (by omega)]
      exact hcall.same_other (.of_none hself) p hp (by omega)
    · obtain ⟨p, w, hp, hout, hw, rfl⟩ := hf
      have hw₁ := hcall.same_other (.of_none hself) p hp (by omega)
      rw [hpages _ ⟨p, w, hp, by omega, hw₁.trans hw, rfl⟩]
      exact hcall.fresh_page hself _ ⟨_, w, rfl, hw, rfl⟩

/-- With four frames to spare for every page the loop maps them all. -/
theorem mapPages_progress (h : UserTable root kept ph)
    (hcpu : Mm.currentPageTable cpu = Mm.view root) (hal : va.toNat % 4096 = 0)
    (hle : va.toNat + 4096 * k ≤ 2 ^ 47) (hfree : 4 * k ≤ ph.free.length) :
    ∃ va' ph', mapPages cpu prot k va ph = some (0, va', ph') := by
  induction k generalizing va ph with
  | zero => exact ⟨va, ph, rfl⟩
  | succ k ih =>
    have hgood : Mm.badAddr va.toNat = false := Mm.badAddr_eq_false hal (by omega)
    obtain ⟨ph₁, hs, hlen⟩ := @Mm.sysMapPage_progress ph root prot kept cpu _ h hcpu hgood (by omega)
    have hnext := @toNat_next va (by omega)
    rcases Mm.sysMapPage_spec h hcpu hs with ⟨hr, -⟩ | ⟨-, -, hcall⟩
    · omega
    obtain ⟨va', ph', hm⟩ := @ih ph₁ (va + 4096) hcall.table (by omega) (by omega) (by omega)
    refine ⟨va', ph', ?_⟩
    rw [mapPages, hs]
    exact hm

/-- The loop of `unmap_page` calls maps nothing, and the pages it visits are not mapped
afterwards unless they lie in a block. -/
theorem unmapPages_spec (h : UserTable root kept ph)
    (hcpu : Mm.currentPageTable cpu = Mm.view root) (hm : unmapPages cpu k va ph = some ph') :
    UserTable root kept ph' ∧
    (∀ p, p < 2 ^ 36 → pageLeaf ph' root p = pageLeaf ph root p ∨ pageLeaf ph' root p = none) ∧
    (va.toNat % 4096 = 0 → va.toNat + 4096 * k ≤ 2 ^ 47 → ∀ p, va.toNat / 4096 ≤ p →
      p < va.toNat / 4096 + k → NoBlock ph root p → pageLeaf ph' root p = none) := by
  induction k generalizing va ph with
  | zero =>
    cases hm
    exact ⟨h, fun _ _ => Or.inl rfl, fun _ _ p h₁ h₂ => absurd h₂ (by omega)⟩
  | succ k ih =>
    rw [unmapPages] at hm
    split at hm
    case h_2 => cases hm
    case h_1 r ph₁ hs =>
    have hcall := Mm.sysUnmapPage_spec h hcpu hs
    obtain ⟨htable, hmono, hgone⟩ := ih hcall.table hm
    refine ⟨htable, fun p hp => ?_, fun hal hle p h₁ h₂ hno => ?_⟩
    · rcases hmono p hp with h₁ | h₁
      · rw [h₁]
        exact hcall.mono p hp
      · exact Or.inr h₁
    · have hp : p < 2 ^ 36 := by omega
      rcases Nat.eq_or_lt_of_le h₁ with rfl | hlt
      · apply Mm.pageLeaf_none_of_kept (hmono _ hp)
        apply hcall.gone _ hno
        rw [Mm.badAddr_eq_false hal (by omega), Bool.not_false]
      · have hnext := @toNat_next va (by omega)
        apply hgone (by omega) (by omega) p (by omega) (by omega)
        exact .of_kept (hcall.mono p hp) hno

end Loops

end QuackOS.Linux
