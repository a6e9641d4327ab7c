import QuackOS.Linux.Memory
import QuackOS.Mm.Conservation

/-!
# Where `sys_mmap` puts its ranges

`sys_mmap` places a range at `mmap_base` and moves `mmap_base` to the end of whatever range it
mapped, also of one at a fixed address.

* `MemOp.Safe` — the calls that leave `mmap_base` above everything that is in use;
* `Placed`, `Placed.step` — the invariant of these calls;
* `fresh_run` — **as long as every call is such, a range that `sys_mmap` places is unmapped
  before, zero afterwards, and apart from the heap and from every range given out**;
* `fixed_range_moves_base_back` — a range at a fixed address below `mmap_base` makes the next
  call hand out memory that is in use.
-/

namespace QuackOS.Linux

open Mm (Phys Cpu UserTable NoBlock pageLeaf)

/-! ## What the calls should do -/

/-- A call of `sys_mmap` without `MAP_FIXED` that succeeds gives out fresh memory: the pages were
not mapped, they are mapped to zero pages now, none of them was given out before and not taken
back, and none has a byte of the heap. -/
def Fresh (cpu : Cpu) (root : ℕ) (s : MemState) : MemOp → Prop
  | .mmap addr length prot flags => flags &&& mapFixed = 0 →
    ∀ ret s', (MemOp.mmap addr length prot flags).run cpu s = some (ret, s') →
    isError ret = false →
    ret.toNat % 4096 = 0 ∧ ret.toNat + 4096 * pagesFor length ≤ 2 ^ 47 ∧
    ∀ p, ret.toNat / 4096 ≤ p → p < ret.toNat / 4096 + pagesFor length →
      pageLeaf s.ph root p = none ∧
      (∃ w, pageLeaf s'.ph root p = some (3, w) ∧ s'.ph.page (Mm.Pte.ppn w) = fun _ => 0#64) ∧
      p ∉ s.given ∧
      ∀ a, a / 4096 = p → ¬ (s.task.initialBrk.toNat ≤ a ∧ a < s.task.brk.toNat)
  | _ => True

/-- The kernel refuses one of the pages because of its address. -/
def Refused (base n : ℕ) : Prop := 0 < n ∧ (base % 4096 ≠ 0 ∨ 2 ^ 47 < base + 4096 * n)

/-- The call leaves `mmap_base` above everything that is in use, and below the page `top`.  A
range is mapped where the length does not wrap when it is rounded, and ends between `mmap_base`
and `top`; the heap grows up to `mmap_base` only. -/
def MemOp.Safe (top : ℕ) (s : MemState) : MemOp → Prop
  | .mmap addr length _ flags =>
    let base := (mapAddr s.task addr flags).toNat
    flags &&& mapAnonymous = 0 ∨ Refused base (pageSteps 0 (pageUp length)) ∨
      (length.toNat ≤ 2 ^ 64 - 4096 ∧ base % 4096 = 0 ∧
        s.task.mmapBase.toNat ≤ base + 4096 * pagesFor length ∧
        base + 4096 * pagesFor length ≤ 4096 * top)
  | .brk newBrk =>
    newBrk.toNat ≤ s.task.brk.toNat ∨ newBrk.toNat ≤ s.task.mmapBase.toNat
  | _ => True

/-! ## The invariant -/

/-- Nothing is in use from `mmap_base` up to the page `top`. -/
structure Placed (root : ℕ) (kept : List ℕ) (top : ℕ) (s : MemState) : Prop where
  table : UserTable root kept s.ph
  aligned : s.task.mmapBase.toNat % 4096 = 0
  le_top : s.task.mmapBase.toNat ≤ 4096 * top
  clear : ∀ p, s.task.mmapBase.toNat / 4096 ≤ p → p < top → pageLeaf s.ph root p = none
  heap : s.task.brk.toNat ≤ s.task.mmapBase.toNat ∨ s.task.brk = s.task.initialBrk
  given : ∀ p ∈ s.given, p < s.task.mmapBase.toNat / 4096

section Step

variable {cpu : Cpu} {root top : ℕ} {kept : List ℕ} {s s' : MemState} {ret : Word}

/-- A call of `sys_mmap` ends in one of three ways. -/
theorem sysMmap_cases {task task' : TaskStruct} {ph ph' : Phys} {addr length prot flags : Word}
    (h : UserTable root kept ph) (hcpu : Mm.currentPageTable cpu = Mm.view root)
    (hs : sysMmap cpu task ph addr length prot flags = some (ret, task', ph')) :
    (flags &&& mapAnonymous = 0 ∧ ret = Errno.word .ENOSYS ∧ task' = task ∧ ph' = ph) ∨
    (∃ k va ph₁, mapPages cpu prot.toNat k (mapAddr task addr flags) ph = some (0, va, ph₁) ∧
      unmapPages cpu k (mapAddr task addr flags) ph₁ = some ph' ∧
      ret = Errno.word .ENOMEM ∧ task' = task) ∨
    (∃ va, flags &&& mapAnonymous ≠ 0 ∧
      mapPages cpu prot.toNat (pageSteps 0 (pageUp length)) (mapAddr task addr flags) ph =
        some (0, va, ph') ∧
      ret = mapAddr task addr flags ∧ task' = { task with mmapBase := va }) := by
  unfold sysMmap at hs
  split at hs
  case isTrue hanon =>
    cases hs
    exact Or.inl ⟨hanon, rfl, rfl, rfl⟩
  case isFalse hanon =>
  dsimp only at hs
  split at hs
  case h_2 => cases hs
  case h_1 r va ph₁ hm =>
  obtain ⟨k, -, hk, hend⟩ := mapPages_cases h hcpu hm
  obtain ⟨-, hva⟩ := mapPages_spec h hcpu hk
  rcases hend with ⟨hr, -⟩ | ⟨rfl, rfl⟩
  · rw [if_pos hr] at hs
    obtain ⟨ph₂, hu, heq⟩ := Option.map_eq_some_iff.mp hs
    cases heq
    -- the cleanup visits the pages that were mapped
    have hsteps : pageSteps (mapAddr task addr flags) va = k := by
      rw [pageSteps, hva]
      omega
    rw [hsteps] at hu
    exact Or.inr (Or.inl ⟨k, va, ph₁, hk, hu, rfl, rfl⟩)
  · rw [if_neg (by decide)] at hs
    cases hs
    exact Or.inr (Or.inr ⟨va, hanon, hk, rfl, rfl⟩)

/-- A call whose pages can all be mapped. -/
theorem run_mmap {addr length prot flags base va : Word} {ph' : Phys}
    (hanon : flags &&& mapAnonymous ≠ 0) (hbase : mapAddr s.task addr flags = base)
    (hm : mapPages cpu prot.toNat (pageSteps 0 (pageUp length)) base s.ph = some (0, va, ph')) :
    ∃ s', (MemOp.mmap addr length prot flags).run cpu s = some (base, s') ∧
      (MemOp.mmap addr length prot flags).step cpu s = some s' ∧ s'.task.mmapBase = va ∧
      s'.ph = ph' := by
  subst hbase
  have hrun : (MemOp.mmap addr length prot flags).run cpu s = some (mapAddr s.task addr flags,
      ⟨{ s.task with mmapBase := va }, ph', givenAfter s.given (mapAddr s.task addr flags)
        (.mmap addr length prot flags)⟩) := by
    simp only [MemOp.run, sysMmap, if_neg hanon, hm, show ¬ ((0 : ℤ) < 0) by decide, if_false,
      Option.map_some]
  exact ⟨_, hrun, congrArg (Option.map Prod.snd) hrun, rfl, rfl⟩

/-- A range that was mapped and then unmapped again leaves nothing mapped that was not. -/
theorem none_of_cleanup {k prot p : ℕ} {base va : Word} {ph ph₁ ph' : Phys}
    (h : UserTable root kept ph) (hcpu : Mm.currentPageTable cpu = Mm.view root)
    (hm : mapPages cpu prot k base ph = some (0, va, ph₁))
    (hu : unmapPages cpu k base ph₁ = some ph') (hp : p < 2 ^ 36)
    (hnone : pageLeaf ph root p = none) : pageLeaf ph' root p = none := by
  obtain ⟨hrun, -⟩ := mapPages_spec h hcpu hm
  obtain ⟨-, hmono, hgone⟩ := unmapPages_spec hrun.table hcpu hu
  by_cases hin : base.toNat / 4096 ≤ p ∧ p < base.toNat / 4096 + k
  · obtain ⟨hal, hle⟩ := hrun.aligned (by omega)
    exact hgone hal hle p hin.1 hin.2 (hrun.noBlock p hp (.of_none hnone))
  · have h₁ : pageLeaf ph₁ root p = none :=
      Mm.pageLeaf_none_of_kept (hrun.other p hp (by omega)) hnone
    exact Mm.pageLeaf_none_of_kept (hmono p hp) h₁

/-- A range that was mapped was not refused, so its call was placed. -/
theorem not_refused {k prot : ℕ} {base va : Word} {ph ph' : Phys}
    (h : UserTable root kept ph) (hcpu : Mm.currentPageTable cpu = Mm.view root)
    (hm : mapPages cpu prot k base ph = some (0, va, ph')) : ¬ Refused base.toNat k := by
  rintro ⟨hk, hbad⟩
  have := (mapPages_spec h hcpu hm).1.aligned hk
  omega

/-- A call that succeeds maps the pages that its length needs. -/
theorem placed_of_mapped {addr length prot flags va : Word} {ph' : Phys} (h : Placed root kept top s)
    (hcpu : Mm.currentPageTable cpu = Mm.view root)
    (hsafe : (MemOp.mmap addr length prot flags).Safe top s) (hanon : flags &&& mapAnonymous ≠ 0)
    (hm : mapPages cpu prot.toNat (pageSteps 0 (pageUp length)) (mapAddr s.task addr flags) s.ph =
      some (0, va, ph')) :
    let base := (mapAddr s.task addr flags).toNat
    pageSteps 0 (pageUp length) = pagesFor length ∧ base % 4096 = 0 ∧
      s.task.mmapBase.toNat ≤ base + 4096 * pagesFor length ∧
      base + 4096 * pagesFor length ≤ 4096 * top := by
  rcases hsafe with hno | hno | ⟨hlen, hplaced⟩
  · exact absurd hno hanon
  · exact absurd hno (not_refused h.table hcpu hm)
  · exact ⟨pageSteps_length hlen, hplaced⟩

theorem Placed.mmap {addr length prot flags : Word} (htop : top ≤ 2 ^ 35)
    (h : Placed root kept top s) (hcpu : Mm.currentPageTable cpu = Mm.view root)
    (hsafe : (MemOp.mmap addr length prot flags).Safe top s)
    (hrun : (MemOp.mmap addr length prot flags).run cpu s = some (ret, s')) :
    Placed root kept top s' := by
  obtain ⟨⟨ret', task', ph'⟩, hs, heq⟩ := Option.map_eq_some_iff.mp hrun
  cases heq
  have herr : ∀ e : Errno, ret = e.word →
      givenAfter s.given ret (.mmap addr length prot flags) = s.given := by
    rintro e rfl
    have : isError e.word = true := by cases e <;> decide
    simp [givenAfter, this]
  rcases sysMmap_cases h.table hcpu hs with ⟨-, hret, rfl, rfl⟩ | ⟨k, va, ph₁, hm, hu, hret, rfl⟩ |
    ⟨va, hanon, hm, rfl, rfl⟩
  · rw [herr _ hret]
    exact h
  · -- the call failed and was undone
    rw [herr _ hret]
    refine ⟨?_, h.aligned, h.le_top, fun p h₁ h₂ => ?_, h.heap, h.given⟩
    · exact (unmapPages_spec (mapPages_spec h.table hcpu hm).1.table hcpu hu).1
    · exact none_of_cleanup h.table hcpu hm hu (by omega) (h.clear p h₁ h₂)
  · obtain ⟨hn, hal, hlo, hhi⟩ := placed_of_mapped h hcpu hsafe hanon hm
    rw [hn] at hm
    obtain ⟨hmapped, hva⟩ := mapPages_spec h.table hcpu hm
    have hgiven : ∀ p ∈ givenAfter s.given (mapAddr s.task addr flags)
        (.mmap addr length prot flags), p < va.toNat / 4096 := by
      intro p hp
      have hold : p ∈ s.given → p < va.toNat / 4096 := fun hp => by
        have := h.given p hp
        omega
      rw [givenAfter] at hp
      split at hp
      · exact hold hp
      · rcases List.mem_append.mp hp with hp | hp
        · exact hold hp
        · have := List.mem_range'_1.mp hp
          omega
    refine ⟨hmapped.table, ?_, ?_, fun p h₁ h₂ => ?_, ?_, hgiven⟩
    · show va.toNat % 4096 = 0
      omega
    · show va.toNat ≤ 4096 * top
      omega
    · have h₃ : va.toNat / 4096 ≤ p := h₁
      have hnone := h.clear p (by omega) h₂
      exact Mm.pageLeaf_none_of_kept (hmapped.other p (by omega) (by omega)) hnone
    · rcases h.heap with hheap | hheap
      · left
        show s.task.brk.toNat ≤ va.toNat
        omega
      · exact Or.inr hheap

/-- A call that maps nothing from `mmap_base` on and leaves `mmap_base` where it is. -/
theorem Placed.of_clear {ph' : Phys} {brk' : Word} {given' : List ℕ} (h : Placed root kept top s)
    (htable : UserTable root kept ph')
    (hclear : ∀ p, s.task.mmapBase.toNat / 4096 ≤ p → p < top → pageLeaf s.ph root p = none →
      pageLeaf ph' root p = none)
    (hheap : brk'.toNat ≤ s.task.mmapBase.toNat ∨ brk' = s.task.initialBrk)
    (hgiven : ∀ p ∈ given', p ∈ s.given) :
    Placed root kept top ⟨{ s.task with brk := brk' }, ph', given'⟩ :=
  ⟨htable, h.aligned, h.le_top, fun p h₁ h₂ => hclear p h₁ h₂ (h.clear p h₁ h₂), hheap,
    fun p hp => h.given p (hgiven p hp)⟩

theorem Placed.unmap {k : ℕ} {va brk' : Word} {ph' : Phys} {given' : List ℕ} (htop : top ≤ 2 ^ 35)
    (h : Placed root kept top s) (hcpu : Mm.currentPageTable cpu = Mm.view root)
    (hu : unmapPages cpu k va s.ph = some ph')
    (hheap : brk'.toNat ≤ s.task.mmapBase.toNat ∨ brk' = s.task.initialBrk)
    (hgiven : ∀ p ∈ given', p ∈ s.given) :
    Placed root kept top ⟨{ s.task with brk := brk' }, ph', given'⟩ := by
  obtain ⟨htable, hmono, -⟩ := unmapPages_spec h.table hcpu hu
  refine h.of_clear htable (fun p h₁ h₂ hnone => ?_) hheap hgiven
  exact Mm.pageLeaf_none_of_kept (hmono p (by omega)) hnone

theorem Placed.munmap {addr length : Word} (htop : top ≤ 2 ^ 35) (h : Placed root kept top s)
    (hcpu : Mm.currentPageTable cpu = Mm.view root)
    (hrun : (MemOp.munmap addr length).run cpu s = some (ret, s')) : Placed root kept top s' := by
  obtain ⟨⟨ret', task', ph'⟩, hs, heq⟩ := Option.map_eq_some_iff.mp hrun
  cases heq
  have hgiven : ∀ p ∈ givenAfter s.given ret (.munmap addr length), p ∈ s.given := by
    intro p hp
    rw [givenAfter] at hp
    split at hp
    · exact hp
    · exact List.mem_of_mem_filter hp
  dsimp only [sysMunmap] at hs
  split at hs
  · cases hs
    exact h.of_clear h.table (fun _ _ _ hnone => hnone) h.heap hgiven
  · obtain ⟨ph₁, hu, heq⟩ := Option.map_eq_some_iff.mp hs
    cases heq
    exact h.unmap htop hcpu hu h.heap hgiven

/-- The heap below `mmap_base`, page by page. -/
theorem Placed.grow {k : ℕ} {brk' newBrk : Word} {ph' : Phys} {va : Word} (htop : top ≤ 2 ^ 35)
    (h : Placed root kept top s) (hcpu : Mm.currentPageTable cpu = Mm.view root)
    (hlt : s.task.brk.toNat < newBrk.toNat) (hle : newBrk.toNat ≤ s.task.mmapBase.toNat)
    (hk : k ≤ pageSteps (pageUp s.task.brk) (pageUp newBrk))
    (hm : mapPages cpu 3 k (pageUp s.task.brk) s.ph = some (0, va, ph'))
    (hbrk : brk' = s.task.brk ∨ brk' = newBrk) :
    Placed root kept top ⟨{ s.task with brk := brk' }, ph', s.given⟩ := by
  obtain ⟨hmapped, -⟩ := mapPages_spec h.table hcpu hm
  have hal := h.aligned
  have hbase := h.le_top
  rw [pageSteps, toNat_pageUp (by omega), toNat_pageUp (by omega)] at hk
  have hstart : (pageUp s.task.brk).toNat = (s.task.brk.toNat + 4095) / 4096 * 4096 :=
    toNat_pageUp (by omega)
  refine h.of_clear hmapped.table (fun p h₁ h₂ hnone => ?_) ?_ fun p hp => hp
  · exact Mm.pageLeaf_none_of_kept (hmapped.other p (by omega) (by omega)) hnone
  · rcases hbrk with rfl | rfl <;> omega

theorem Placed.brk {newBrk : Word} (htop : top ≤ 2 ^ 35) (h : Placed root kept top s)
    (hcpu : Mm.currentPageTable cpu = Mm.view root) (hsafe : (MemOp.brk newBrk).Safe top s)
    (hrun : (MemOp.brk newBrk).run cpu s = some (ret, s')) : Placed root kept top s' := by
  obtain ⟨⟨ret', task', ph'⟩, hs, heq⟩ := Option.map_eq_some_iff.mp hrun
  cases heq
  rw [show givenAfter s.given ret (.brk newBrk) = s.given from rfl]
  dsimp only [sysBrk] at hs
  split at hs
  · cases hs
    exact h
  obtain ⟨⟨res, task₁, ph₁⟩, hd, heq⟩ := Option.map_eq_some_iff.mp hs
  -- the result of the call says nothing about the state
  have hst : task₁ = task' ∧ ph₁ = ph' := by
    cases res <;> (cases heq; exact ⟨rfl, rfl⟩)
  obtain ⟨rfl, rfl⟩ := hst
  unfold doBrk at hd
  split at hd
  · cases hd
    exact h
  split at hd
  case isTrue hlt =>
    have hle : newBrk.toNat ≤ s.task.mmapBase.toNat := by
      rcases hsafe with hsafe | hsafe
      · omega
      · exact hsafe
    dsimp only at hd
    split at hd
    case h_2 => cases hd
    case h_1 r va ph₂ hm =>
    obtain ⟨k, hk, hm', -⟩ := mapPages_cases h.table hcpu hm
    split at hd
    · cases hd
      exact h.grow htop hcpu hlt hle hk hm' (Or.inl rfl)
    · cases hd
      exact h.grow htop hcpu hlt hle hk hm' (Or.inr rfl)
  case isFalse hge =>
  split at hd
  case isTrue hlt =>
    obtain ⟨ph₂, hu, heq⟩ := Option.map_eq_some_iff.mp hd
    cases heq
    refine h.unmap htop hcpu hu ?_ fun p hp => hp
    rcases h.heap with hheap | hheap
    · left
      omega
    · rw [hheap] at hlt
      omega
  case isFalse hge' =>
    cases hd
    have : newBrk = s.task.brk := BitVec.eq_of_toNat_eq (by omega)
    subst this
    exact h

theorem Placed.store {va : ℕ} {w : Word} (h : Placed root kept top s)
    (hcpu : Mm.currentPageTable cpu = Mm.view root)
    (hrun : (MemOp.store va w).run cpu s = some (ret, s')) : Placed root kept top s' := by
  cases hrun
  refine h.of_clear (Mm.store_step h.table hcpu).table (fun p _ _ hnone => ?_) h.heap fun p hp => hp
  rw [pageLeaf, Mm.leaf_userStore h.table hcpu rfl]
  exact hnone

/-- **Every safe call keeps the invariant.** -/
theorem Placed.step {op : MemOp} (htop : top ≤ 2 ^ 35) (h : Placed root kept top s)
    (hcpu : Mm.currentPageTable cpu = Mm.view root) (hsafe : op.Safe top s)
    (hstep : op.step cpu s = some s') : Placed root kept top s' := by
  obtain ⟨⟨ret, s₁⟩, hrun, rfl⟩ := Option.map_eq_some_iff.mp hstep
  cases op with
  | mmap addr length prot flags => exact h.mmap htop hcpu hsafe hrun
  | munmap addr length => exact h.munmap htop hcpu hrun
  | brk newBrk => exact h.brk htop hcpu hsafe hrun
  | store va w => exact h.store hcpu hrun

/-- **Every safe call of `sys_mmap` gives out fresh memory.** -/
theorem Placed.fresh {op : MemOp} (htop : top ≤ 2 ^ 35) (h : Placed root kept top s)
    (hcpu : Mm.currentPageTable cpu = Mm.view root) (hsafe : op.Safe top s) :
    Fresh cpu root s op := by
  cases op with
  | munmap addr length => trivial
  | brk newBrk => trivial
  | store va w => trivial
  | mmap addr length prot flags =>
    intro hfixed ret s' hrun hok
    obtain ⟨⟨ret', task', ph'⟩, hs, heq⟩ := Option.map_eq_some_iff.mp hrun
    cases heq
    have hbase : mapAddr s.task addr flags = s.task.mmapBase := by
      rw [mapAddr, if_neg]
      exact fun hand => hand.1 hfixed
    rcases sysMmap_cases h.table hcpu hs with ⟨-, rfl, -⟩ | ⟨k, va, ph₁, -, -, rfl, -⟩ |
      ⟨va, hanon, hm, rfl, -⟩
    · cases hok
    · cases hok
    · obtain ⟨hn, hal, -, hhi⟩ := placed_of_mapped h hcpu hsafe hanon hm
      rw [hn, hbase] at hm
      rw [hbase] at hal hhi ⊢
      have hnone : ∀ p, s.task.mmapBase.toNat / 4096 ≤ p →
          p < s.task.mmapBase.toNat / 4096 + pagesFor length → pageLeaf s.ph root p = none :=
        fun p h₁ h₂ => h.clear p h₁ (by omega)
      obtain ⟨hzero, -, -⟩ := mapPages_fresh h.table hcpu hm hnone
      refine ⟨hal, by omega, fun p h₁ h₂ => ⟨hnone p h₁ h₂, hzero p h₁ h₂, fun hp => ?_,
        fun a ha hin => ?_⟩⟩
      · have := h.given p hp
        omega
      · rcases h.heap with hheap | hheap
        · omega
        · rw [hheap] at hin
          omega

end Step

/-! ## Runs -/

section Runs

variable {cpu : Cpu} {root top : ℕ} {kept : List ℕ} {ph : Phys} {initialBrk : Word}
  {ops : List MemOp}

/-- A task that starts on a table with nothing mapped from `mmap_base` up to the page `top`. -/
def MemState.start (initialBrk : Word) (ph : Phys) : MemState := ⟨TaskStruct.new initialBrk, ph, []⟩

/-- **Fresh memory.**  A task starts on a table with nothing mapped from its `mmap_base` up to the
page `top`.  In every run of safe calls, every call of `sys_mmap` without `MAP_FIXED` that
succeeds gives out pages that were not mapped, are zero afterwards, and are apart from the heap
and from the ranges given out before. -/
theorem fresh_run (htable : UserTable root kept ph)
    (hcpu : Mm.currentPageTable cpu = Mm.view root) (hbase : 0x100000 ≤ top) (htop : top ≤ 2 ^ 35)
    (hclear : ∀ p, 0x100000 ≤ p → p < top → pageLeaf ph root p = none)
    (hsafe : Run.AlongSome (MemOp.step cpu) (fun s op => op.Safe top s)
      (MemState.start initialBrk ph) ops) :
    Run.AlongSome (MemOp.step cpu) (Fresh cpu root) (MemState.start initialBrk ph) ops := by
  have hstart : Placed root kept top (MemState.start initialBrk ph) := by
    have hb : (MemState.start initialBrk ph).task.mmapBase.toNat = 0x100000000 := rfl
    exact ⟨htable, by omega, by omega, fun p h₁ h₂ => hclear p (by omega) h₂, Or.inr rfl,
      fun p hp => nomatch hp⟩
  exact Run.alongSome_of_invariant (fun s op s' hs hop hstep => hs.step htop hcpu hop hstep)
    (fun s op hs hop => hs.fresh htop hcpu hop) hstart hsafe

/-- The processor of a thread whose table is the first frame of sixteen. -/
def sixteenCpu : Cpu := ⟨0x50000000, 0⟩

/-- A machine with sixteen free frames on which a table was created. -/
def sixteenPh : Phys :=
  match Mm.createKernelMappedPageTable Mm.sixteenFrames with
  | some (_, ph) => ph
  | none => Mm.sixteenFrames

/-- A task can start there. -/
theorem sixteen_start : Mm.currentPageTable sixteenCpu = Mm.view 0x50000 ∧
    (∃ kept, UserTable 0x50000 kept sixteenPh) ∧
    ∀ p, 0x100000 ≤ p → p < 2 ^ 35 → pageLeaf sixteenPh 0x50000 p = none := by
  have hc : (Mm.createKernelMappedPageTable Mm.sixteenFrames).any
      (fun r => match r.1 with | .ok _ => true | .error _ => false) = true := by decide
  obtain ⟨⟨res, ph⟩, hc, hres⟩ := (Option.any_eq_true _ _).mp hc
  cases res with
  | error e => cases hres
  | ok pt =>
  have hph : sixteenPh = ph := by
    unfold sixteenPh
    rw [hc]
  obtain ⟨root, l1, tr, lo, mid, rest, hcr⟩ := Mm.create_spec Mm.sixteenFrames_ok hc
  have hroot : root = 0x50000 := by
    have := hcr.taken_from
    simp only [Mm.sixteenFrames, List.cons.injEq] at this
    exact this.1.symm
  subst hroot
  rw [hph]
  refine ⟨rfl, ⟨[tr], hcr.userTable Mm.sixteenFrames_ok⟩, fun p h₁ h₂ => ?_⟩
  exact hcr.leaf_above Mm.sixteenFrames_ok (by omega) (by omega)

/-- Two calls for one page each. -/
theorem fresh_run_pages :
    (∃ kept, UserTable 0x50000 kept sixteenPh) ∧
    Mm.currentPageTable sixteenCpu = Mm.view 0x50000 ∧
    (∀ p, 0x100000 ≤ p → p < 2 ^ 35 → pageLeaf sixteenPh 0x50000 p = none) ∧
    Run.AlongSome (MemOp.step sixteenCpu) (Fresh sixteenCpu 0x50000)
      (MemState.start 0x600000 sixteenPh) [.mmap 0 4000 3 0x22, .mmap 0 4096 3 0x22] := by
  obtain ⟨hcpu, ⟨kept, htable⟩, hclear⟩ := sixteen_start
  have h₁ : (MemOp.step sixteenCpu (MemState.start 0x600000 sixteenPh) (.mmap 0 4000 3 0x22)).all
      (fun s => s.task.mmapBase = 0x100001000) = true := by decide
  refine ⟨⟨kept, htable⟩, hcpu, hclear, @fresh_run _ _ (2 ^ 35) _ _ _ _ htable hcpu (by decide)
    le_rfl hclear ?_⟩
  refine ⟨Or.inr (Or.inr (by decide)), fun s hs => ?_⟩
  rw [hs] at h₁
  have hb : s.task.mmapBase = 0x100001000 := of_decide_eq_true h₁
  refine ⟨Or.inr (Or.inr ?_), fun _ _ => trivial⟩
  rw [show mapAddr s.task 0 0x22 = s.task.mmapBase from rfl, hb]
  decide

/-- **A fixed range below `mmap_base`.**  Two pages are given out, and then one page is mapped at
the fixed address of the first.  That moves `mmap_base` back, and the next call gives out the
second page, which is mapped and still in use. -/
theorem fixed_range_moves_base_back :
    (∃ kept, UserTable 0x50000 kept sixteenPh) ∧
    Mm.currentPageTable sixteenCpu = Mm.view 0x50000 ∧
    (∀ p, 0x100000 ≤ p → p < 2 ^ 35 → pageLeaf sixteenPh 0x50000 p = none) ∧
    ¬ Run.AlongSome (MemOp.step sixteenCpu) (Fresh sixteenCpu 0x50000)
      (MemState.start 0x600000 sixteenPh)
      [.mmap 0 8192 3 0x22, .mmap 0x100000000 4096 3 0x32, .mmap 0 4096 3 0x22] := by
  obtain ⟨hcpu, ⟨kept, htable⟩, hclear⟩ := sixteen_start
  refine ⟨⟨kept, htable⟩, hcpu, hclear, fun hall => ?_⟩
  -- the first call maps two pages
  obtain ⟨va₁, ph₁, hm₁⟩ := @mapPages_progress sixteenCpu sixteenPh 0x50000 2 3 kept 0x100000000
    htable hcpu (by decide) (by decide) (by decide)
  obtain ⟨hmap₁, -⟩ := mapPages_spec htable hcpu hm₁
  obtain ⟨hzero, -, -⟩ := mapPages_fresh htable hcpu hm₁ fun p h₁ h₂ => by
    rw [show (0x100000000 : Word).toNat = 0x100000000 from rfl] at h₁ h₂
    exact hclear p (by omega) (by omega)
  obtain ⟨w₀, hw₀, -⟩ := hzero 0x100000 (by decide) (by decide)
  obtain ⟨w₁, hw₁, -⟩ := hzero 0x100001 (by decide) (by decide)
  obtain ⟨s₁, -, hstep₁, -, rfl⟩ := @run_mmap sixteenCpu (MemState.start 0x600000 sixteenPh)
    0 8192 3 0x22 _ va₁ ph₁ (by decide) rfl hm₁
  -- the second maps the first of them again
  obtain ⟨ph₂, hs₂, -⟩ := @Mm.sysMapPage_of_isMapped s₁.ph 0x50000 3 sixteenCpu 0x100000000 hcpu
    (by decide) (Mm.isMapped_of_pageLeaf hw₀)
  rcases Mm.sysMapPage_spec hmap₁.table hcpu hs₂ with ⟨hr, -⟩ | ⟨-, -, hcall⟩
  · omega
  have hw₂ : pageLeaf ph₂ 0x50000 0x100001 = some (3, w₁) := by
    rw [hcall.same_other (Mm.NoBlock.of_page hw₀) _ (by decide) (by decide), hw₁]
  obtain ⟨s₂, -, hstep₂, hbase₂, rfl⟩ := @run_mmap sixteenCpu s₁ 0x100000000 4096 3 0x32 0x100000000
    0x100001000 ph₂ (by decide) rfl (@mapPages_one _ _ _ _ 0x100000000 hs₂)
  -- and the third gives out the other one
  obtain ⟨ph₃, hs₃, -⟩ := @Mm.sysMapPage_of_isMapped s₂.ph 0x50000 3 sixteenCpu 0x100001000 hcpu
    (by decide) (Mm.isMapped_of_pageLeaf hw₂)
  obtain ⟨s₃, hrun₃, -⟩ := @run_mmap sixteenCpu s₂ 0 4096 3 0x22 0x100001000 0x100002000 ph₃
    (by decide) hbase₂ (@mapPages_one _ _ _ _ 0x100001000 hs₃)
  obtain ⟨-, -, hpages⟩ := ((hall.2 s₁ hstep₁).2 s₂ hstep₂).1 rfl _ s₃ hrun₃ rfl
  obtain ⟨hnone, -⟩ := hpages 0x100001 (by decide) (by decide)
  rw [hw₂] at hnone
  cases hnone

end Runs

end QuackOS.Linux
