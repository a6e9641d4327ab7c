import QuackOS.Linux.Placement
import QuackOS.Mm.Unmapping

/-!
# A call of `sys_mmap` that fails

When the kernel refuses a page, `sys_mmap` unmaps the pages from the start of its range up to that
page.  It maps a page that is mapped already without an error, so the cleanup meets it as well.

* `NoEffect` — `mmap_base` and every page are as they were before the call;
* `refusedAt` — the position at which `map_page` first fails;
* `mmap_failure_iff` — **a call that fails has no effect exactly when no page before that position
  was mapped** (and a range of no pages does not move `mmap_base`);
* `failed_mmap_unmaps` — a fixed range over a mapped page, cut off at the end of the user's
  addresses, takes the page away.
-/

namespace QuackOS.Linux

open Mm (Phys Cpu sysMapPage sysUnmapPage UserTable NoBlock pageLeaf)

/-! ## What a failed call should do -/

/-- `mmap_base` is where it was, and so is every page, with its frame, its protection and its
contents.  (A page of a block belongs to the kernel; its contents are not the thread's.) -/
structure NoEffect (root : ℕ) (task : TaskStruct) (ph : Phys) (task' : TaskStruct) (ph' : Phys) :
    Prop where
  base : task'.mmapBase = task.mmapBase
  leaf : ∀ p, p < 2 ^ 36 → pageLeaf ph' root p = pageLeaf ph root p
  contents : ∀ p w, p < 2 ^ 36 → pageLeaf ph root p = some (3, w) →
    ph'.page (Mm.Pte.ppn w) = ph.page (Mm.Pte.ppn w)

/-- The position, from an address on, at which `map_page` first fails. -/
def refusedAt (cpu : Cpu) (prot : ℕ) : ℕ → Word → Phys → Option ℕ
  | 0, _, _ => none
  | n + 1, va, ph =>
    match sysMapPage cpu ph va.toNat prot with
    | some (ret, ph) =>
      if ret < 0 then some 0 else (refusedAt cpu prot n (va + 4096) ph).map (· + 1)
    | none => none

/-- No page of the range before the one that is refused was mapped, and a range of no pages starts
at `mmap_base`. -/
def Untouched (cpu : Cpu) (root : ℕ) (task : TaskStruct) (ph : Phys)
    (addr length prot flags : Word) : Prop :=
  flags &&& mapAnonymous ≠ 0 →
    let base := mapAddr task addr flags
    let n := pageSteps 0 (pageUp length)
    (∀ k, refusedAt cpu prot.toNat n base ph = some k →
      ∀ p, base.toNat / 4096 ≤ p → p < base.toNat / 4096 + k → pageLeaf ph root p = none) ∧
    (n = 0 → base = task.mmapBase)

/-! ## The two loops -/

section Loops

variable {cpu : Cpu} {ph ph₁ ph' : Phys} {root k n prot p : ℕ} {kept : List ℕ} {va va' : Word}
  {ret : ℤ}

/-- The loop stops at the page that is refused. -/
theorem refusedAt_of_mapPages (h : UserTable root kept ph)
    (hcpu : Mm.currentPageTable cpu = Mm.view root)
    (hm : mapPages cpu prot n va ph = some (ret, va', ph')) (hret : ret < 0) :
    ∃ k < n, refusedAt cpu prot n va ph = some k ∧
      mapPages cpu prot k va ph = some (0, va', ph') := by
  induction n generalizing va ph with
  | zero =>
    cases hm
    omega
  | succ n ih =>
    rw [mapPages] at hm
    split at hm
    case h_2 => cases hm
    case h_1 r ph₁ hs =>
    rcases Mm.sysMapPage_spec h hcpu hs with ⟨hr, rfl⟩ | ⟨rfl, -, hcall⟩
    · rw [if_pos hr] at hm
      cases hm
      refine ⟨0, by omega, ?_, rfl⟩
      rw [refusedAt, hs]
      exact if_pos hr
    · rw [if_neg (by decide)] at hm
      obtain ⟨k, hk, hat, hfirst⟩ := ih hcall.table hm
      refine ⟨k + 1, by omega, ?_, ?_⟩
      · rw [refusedAt, hs]
        dsimp only
        rw [if_neg (by decide), hat, Option.map_some]
      · rw [mapPages, hs]
        exact hfirst

/-- A loop that maps all its pages is not refused any. -/
theorem refusedAt_eq_none (hm : mapPages cpu prot n va ph = some (0, va', ph')) :
    refusedAt cpu prot n va ph = none := by
  induction n generalizing va ph with
  | zero => rfl
  | succ n ih =>
    rw [mapPages] at hm
    split at hm
    case h_2 => cases hm
    case h_1 r ph₁ hs =>
    split at hm
    case isTrue hr =>
      cases hm
      omega
    case isFalse hr =>
      rw [refusedAt, hs]
      dsimp only
      rw [if_neg hr, ih hm, Option.map_none]

/-- Every page the loop mapped is a page of the last level. -/
theorem mapPages_visited (h : UserTable root kept ph)
    (hcpu : Mm.currentPageTable cpu = Mm.view root)
    (hm : mapPages cpu prot k va ph = some (0, va', ph')) (hlo : va.toNat / 4096 ≤ p)
    (hhi : p < va.toNat / 4096 + k) : NoBlock ph' root p := by
  induction k generalizing va ph with
  | zero => omega
  | succ k ih =>
    rw [mapPages] at hm
    split at hm
    case h_2 => cases hm
    case h_1 r ph₁ hs =>
    rcases Mm.sysMapPage_spec h hcpu hs with ⟨hr, -⟩ | ⟨rfl, hgood, hcall⟩
    · rw [if_pos hr] at hm
      cases hm
      omega
    rw [if_neg (by decide)] at hm
    obtain ⟨hal, hlt⟩ := Mm.lt_of_badAddr hgood
    have hnext := toNat_next hlt
    rcases Nat.eq_or_lt_of_le hlo with rfl | hlt'
    · obtain ⟨w, hw⟩ := hcall.mapped
      exact (mapPages_spec hcall.table hcpu hm).1.noBlock _ (by omega) (.of_page hw)
    · exact ih hcall.table hm (by omega) (by omega)

/-- The cleanup changes no page outside its range. -/
theorem unmapPages_other (h : UserTable root kept ph)
    (hcpu : Mm.currentPageTable cpu = Mm.view root) (hm : unmapPages cpu k va ph = some ph')
    (hle : 0 < k → va.toNat + 4096 * k ≤ 2 ^ 47) (hp : p < 2 ^ 36)
    (hout : p < va.toNat / 4096 ∨ va.toNat / 4096 + k ≤ p) :
    pageLeaf ph' root p = pageLeaf ph root p ∧
      ∀ w, pageLeaf ph root p = some (3, w) →
        ph'.page (Mm.Pte.ppn w) = ph.page (Mm.Pte.ppn w) := by
  induction k generalizing va ph with
  | zero =>
    cases hm
    exact ⟨rfl, fun _ _ => rfl⟩
  | succ k ih =>
    have hnext := @toNat_next va (by omega)
    rw [unmapPages] at hm
    split at hm
    case h_2 => cases hm
    case h_1 r ph₁ hs =>
    obtain ⟨hleaf, hdata⟩ := Mm.sysUnmapPage_other h hcpu hs hp (by omega)
    obtain ⟨hleaf', hdata'⟩ := ih (Mm.sysUnmapPage_spec h hcpu hs).table hm (by omega) (by omega)
    refine ⟨hleaf'.trans hleaf, fun w hw => ?_⟩
    rw [hdata' w (hleaf.trans hw), hdata w hw]

/-- Mapped and unmapped again, no page of the range is mapped. -/
theorem cleanup_none (h : UserTable root kept ph)
    (hcpu : Mm.currentPageTable cpu = Mm.view root)
    (hm : mapPages cpu prot k va ph = some (0, va', ph₁))
    (hu : unmapPages cpu k va ph₁ = some ph') (hlo : va.toNat / 4096 ≤ p)
    (hhi : p < va.toNat / 4096 + k) : pageLeaf ph' root p = none := by
  obtain ⟨hrun, -⟩ := mapPages_spec h hcpu hm
  obtain ⟨hal, hle⟩ := hrun.aligned (by omega)
  obtain ⟨-, -, hgone⟩ := unmapPages_spec hrun.table hcpu hu
  exact hgone hal hle p hlo hhi (mapPages_visited h hcpu hm hlo hhi)

/-- Over pages that were not mapped, the cleanup undoes the loop. -/
theorem cleanup_undoes {task : TaskStruct} (h : UserTable root kept ph)
    (hcpu : Mm.currentPageTable cpu = Mm.view root)
    (hm : mapPages cpu prot k va ph = some (0, va', ph₁))
    (hu : unmapPages cpu k va ph₁ = some ph')
    (hnone : ∀ p, va.toNat / 4096 ≤ p → p < va.toNat / 4096 + k → pageLeaf ph root p = none) :
    NoEffect root task ph task ph' := by
  obtain ⟨hrun, -⟩ := mapPages_spec h hcpu hm
  obtain ⟨-, hleaf, hdata⟩ := mapPages_fresh h hcpu hm hnone
  have hle : 0 < k → va.toNat + 4096 * k ≤ 2 ^ 47 := fun hk => (hrun.aligned hk).2
  refine ⟨rfl, fun p hp => ?_, fun p w hp hw => ?_⟩
  · by_cases hin : va.toNat / 4096 ≤ p ∧ p < va.toNat / 4096 + k
    · rw [cleanup_none h hcpu hm hu hin.1 hin.2, hnone p hin.1 hin.2]
    · rw [(unmapPages_other hrun.table hcpu hu hle hp (by omega)).1, hleaf p hp (by omega)]
  · -- a page that was mapped lies outside the range
    have hout : p < va.toNat / 4096 ∨ va.toNat / 4096 + k ≤ p := by
      by_contra hin
      rw [hnone p (by omega) (by omega)] at hw
      cases hw
    have hw₁ : pageLeaf ph₁ root p = some (3, w) := (hleaf p hp hout).trans hw
    rw [(unmapPages_other hrun.table hcpu hu hle hp hout).2 w hw₁]
    exact hdata _ ⟨p, w, hp, hout, hw, rfl⟩

end Loops

/-! ## The call -/

section Call

variable {cpu : Cpu} {root : ℕ} {kept : List ℕ} {task task' : TaskStruct} {ph ph' : Phys}
  {addr length prot flags ret : Word}

/-- The call keeps the table. -/
theorem sysMmap_table (h : UserTable root kept ph) (hcpu : Mm.currentPageTable cpu = Mm.view root)
    (hs : sysMmap cpu task ph addr length prot flags = some (ret, task', ph')) :
    UserTable root kept ph' := by
  rcases sysMmap_cases h hcpu hs with ⟨-, -, -, rfl⟩ | ⟨k, va, ph₁, hm, hu, -⟩ | ⟨va, -, hm, -⟩
  · exact h
  · exact (unmapPages_spec (mapPages_spec h hcpu hm).1.table hcpu hu).1
  · exact (mapPages_spec h hcpu hm).1.table

/-- An address at which pages can be mapped is no error. -/
theorem steps_eq_zero_of_isError {n prot : ℕ} {base va : Word}
    (h : UserTable root kept ph) (hcpu : Mm.currentPageTable cpu = Mm.view root)
    (hm : mapPages cpu prot n base ph = some (0, va, ph')) (herr : isError base = true) : n = 0 := by
  by_contra hn
  have hle := ((mapPages_spec h hcpu hm).1.aligned (by omega)).2
  have : 2 ^ 64 - 4095 ≤ base.toNat := of_decide_eq_true herr
  omega

/-- **A call that fails has no effect exactly when none of the pages that it mapped before the
failure was mapped already.**  Every call that returns an error, at a fixed address or not, on any
table of a thread. -/
theorem mmap_failure_iff (h : UserTable root kept ph)
    (hcpu : Mm.currentPageTable cpu = Mm.view root)
    (hs : sysMmap cpu task ph addr length prot flags = some (ret, task', ph'))
    (herr : isError ret = true) :
    NoEffect root task ph task' ph' ↔ Untouched cpu root task ph addr length prot flags := by
  by_cases hanon : flags &&& mapAnonymous = 0
  · -- refused at once
    rw [sysMmap, if_pos hanon] at hs
    cases hs
    exact ⟨fun _ hno => absurd hanon hno, fun _ => ⟨rfl, fun _ _ => rfl, fun _ _ _ _ => rfl⟩⟩
  rw [sysMmap, if_neg hanon] at hs
  dsimp only at hs
  split at hs
  case h_2 => cases hs
  case h_1 r va ph₁ hm =>
  split at hs
  case isTrue hr =>
    obtain ⟨ph₂, hu, heq⟩ := Option.map_eq_some_iff.mp hs
    cases heq
    obtain ⟨k, hk, hat, hfirst⟩ := refusedAt_of_mapPages h hcpu hm hr
    have hva := (mapPages_spec h hcpu hfirst).2
    have hsteps : pageSteps (mapAddr task addr flags) va = k := by
      rw [pageSteps, hva]
      omega
    rw [hsteps] at hu
    constructor
    · intro hno _
      refine ⟨fun k' hk' p hlo hhi => ?_, fun hzero => by omega⟩
      rw [hat] at hk'
      cases hk'
      rw [← hno.leaf p ?_]
      · exact cleanup_none h hcpu hfirst hu hlo hhi
      · have := ((mapPages_spec h hcpu hfirst).1.aligned (by omega)).2
        omega
    · intro hclean
      exact cleanup_undoes h hcpu hfirst hu ((hclean hanon).1 k hat)
  case isFalse hr =>
    cases hs
    -- the value looks like an error although nothing failed: there were no pages to map
    have hr0 : r = 0 := by
      obtain ⟨k, -, -, hend⟩ := mapPages_cases h hcpu hm
      omega
    subst hr0
    have hzero := steps_eq_zero_of_isError h hcpu hm herr
    have hat := refusedAt_eq_none hm
    rw [hzero] at hm
    cases hm
    constructor
    · intro hno _
      refine ⟨fun k hk => ?_, fun _ => hno.base⟩
      rw [hat] at hk
      cases hk
    · intro hclean
      exact ⟨(hclean hanon).2 hzero, fun _ _ => rfl, fun _ _ _ _ => rfl⟩

end Call

/-! ## At the end of the user's addresses -/

section LastPage

variable {cpu : Cpu} {root : ℕ} {kept : List ℕ} {task : TaskStruct} {ph ph₁ : Phys}

/-- Two pages from the last page of the user's addresses on: when the kernel maps the first, it
refuses the second, and the first is unmapped. -/
theorem sysMmap_lastPage (h : UserTable root kept ph)
    (hcpu : Mm.currentPageTable cpu = Mm.view root)
    (hs : sysMapPage cpu ph 0x7ffffffff000 3 = some (0, ph₁)) :
    ∃ ph', sysMmap cpu task ph 0x7ffffffff000 8192 3 0x32 =
        some (Errno.word .ENOMEM, task, ph') ∧ pageLeaf ph' root 0x7ffffffff = none := by
  have hm : mapPages cpu 3 1 0x7ffffffff000 ph = some (0, 0x800000000000, ph₁) :=
    @mapPages_one _ _ _ _ 0x7ffffffff000 hs
  obtain ⟨hrun, -⟩ := mapPages_spec h hcpu hm
  rcases Mm.sysMapPage_spec h hcpu hs with ⟨hr, -⟩ | ⟨-, -, hcall⟩
  · omega
  -- the page is mapped, so it can be unmapped
  obtain ⟨w, hw⟩ := hcall.mapped
  obtain ⟨⟨r, ph', hu, -⟩, -, -⟩ := (Mm.unmapExact_iff hrun.table hcpu).mpr fun _ _ => ⟨w, hw⟩
  have hu' : unmapPages cpu 1 0x7ffffffff000 ph₁ = some ph' := by
    rw [unmapPages, show (0x7ffffffff000 : Word).toNat = 0x7ffffffff000 from rfl, hu]
    rfl
  have hloop : mapPages cpu 3 2 0x7ffffffff000 ph = some (-einval, 0x800000000000, ph₁) := by
    rw [mapPages, show (0x7ffffffff000 : Word).toNat = 0x7ffffffff000 from rfl, hs]
    rfl
  refine ⟨ph', ?_, cleanup_none h hcpu hm hu' (by decide) (by decide)⟩
  rw [sysMmap, if_neg (by decide),
    show mapAddr task 0x7ffffffff000 0x32 = 0x7ffffffff000 from rfl]
  dsimp only
  rw [show pageSteps 0 (pageUp 8192) = 2 by decide, show (3 : Word).toNat = 3 from rfl, hloop]
  dsimp only
  rw [if_pos (by decide), show pageSteps 0x7ffffffff000 0x800000000000 = 1 by decide, hu',
    Option.map_some]

/-- A first page at the end of the user's addresses, on a machine with sixteen frames. -/
theorem sixteen_lastPage : ∃ kept ph₁, UserTable 0x50000 kept sixteenPh ∧
    Mm.currentPageTable sixteenCpu = Mm.view 0x50000 ∧
    sysMapPage sixteenCpu sixteenPh 0x7ffffffff000 3 = some (0, ph₁) := by
  obtain ⟨hcpu, ⟨kept, htable⟩, -⟩ := sixteen_start
  obtain ⟨ph₁, hs, -⟩ := @Mm.sysMapPage_progress sixteenPh 0x50000 3 kept sixteenCpu 0x7ffffffff000
    htable hcpu (by decide) (by decide)
  exact ⟨kept, ph₁, htable, hcpu, hs⟩

end LastPage

/-- A range of two pages, neither of which was mapped. -/
theorem mmap_failure_lastPage : ∃ task' ph',
    sysMmap sixteenCpu (TaskStruct.new 0x600000) sixteenPh 0x7ffffffff000 8192 3 0x32 =
      some (Errno.word .ENOMEM, task', ph') ∧
    (NoEffect 0x50000 (TaskStruct.new 0x600000) sixteenPh task' ph' ↔
      Untouched sixteenCpu 0x50000 (TaskStruct.new 0x600000) sixteenPh 0x7ffffffff000 8192 3
        0x32) := by
  obtain ⟨kept, ph₁, htable, hcpu, hs⟩ := sixteen_lastPage
  obtain ⟨ph', hrun, -⟩ := @sysMmap_lastPage _ _ _ (TaskStruct.new 0x600000) _ _ htable hcpu hs
  exact ⟨_, ph', hrun, mmap_failure_iff htable hcpu hrun rfl⟩

/-- **A failed call unmaps a page that was in use.**  The last page of the user's addresses is
mapped; a second call for two pages at its address fails at the next one, and the cleanup takes
the first away. -/
theorem failed_mmap_unmaps : ∃ ret task ph task' ph',
    sysMmap sixteenCpu (TaskStruct.new 0x600000) sixteenPh 0x7ffffffff000 4096 3 0x32 =
      some (ret, task, ph) ∧
    (∃ kept, UserTable 0x50000 kept ph) ∧ Mm.currentPageTable sixteenCpu = Mm.view 0x50000 ∧
    sysMmap sixteenCpu task ph 0x7ffffffff000 8192 3 0x32 =
      some (Errno.word .ENOMEM, task', ph') ∧
    ¬ NoEffect 0x50000 task ph task' ph' := by
  obtain ⟨kept, ph, htable, hcpu, hs⟩ := sixteen_lastPage
  have hfirst : sysMmap sixteenCpu (TaskStruct.new 0x600000) sixteenPh 0x7ffffffff000 4096 3 0x32 =
      some (0x7ffffffff000, { TaskStruct.new 0x600000 with mmapBase := 0x800000000000 }, ph) := by
    have hm := @mapPages_one sixteenCpu sixteenPh ph 3 0x7ffffffff000 hs
    rw [sysMmap, if_neg (by decide),
      show mapAddr (TaskStruct.new 0x600000) 0x7ffffffff000 0x32 = 0x7ffffffff000 from rfl]
    dsimp only
    rw [show pageSteps 0 (pageUp 4096) = 1 by decide, show (3 : Word).toNat = 3 from rfl, hm]
    rfl
  have htable₁ := sysMmap_table htable hcpu hfirst
  rcases Mm.sysMapPage_spec htable hcpu hs with ⟨hr, -⟩ | ⟨-, -, hcall⟩
  · omega
  obtain ⟨w, hw⟩ := hcall.mapped
  -- the page is mapped again without an error
  obtain ⟨ph₂, hs₂, -⟩ := @Mm.sysMapPage_of_isMapped ph 0x50000 3 sixteenCpu 0x7ffffffff000 hcpu
    (by decide) (Mm.isMapped_of_pageLeaf hw)
  obtain ⟨ph', hsecond, hnone⟩ := @sysMmap_lastPage _ _ _
    { TaskStruct.new 0x600000 with mmapBase := 0x800000000000 } _ _ htable₁ hcpu hs₂
  refine ⟨_, _, ph, _, ph', hfirst, ⟨kept, htable₁⟩, hcpu, hsecond, fun hno => ?_⟩
  have hkept := hno.leaf 0x7ffffffff (by decide)
  rw [hnone, show pageLeaf ph 0x50000 0x7ffffffff = some (3, w) from hw] at hkept
  cases hkept

end QuackOS.Linux
