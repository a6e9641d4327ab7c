import QuackOS.Vm.Brk

/-!
# The layout of a new process

`init_process_vma` inserts the areas of a new process one after the other.  The heap it inserts is
empty, and `insert` refuses empty areas.

* `Layout.Legal`, `LayoutSound` — the layouts, and what is asked of one;
* `insertAll_spec` — areas that are apart from each other are all inserted;
* `init_fails` — **no layout gets what is asked**: with a heap the call fails before the stack is
  there, and without one no break is ever granted;
* `init_refuses` — the layout of the source's own test.
-/

namespace QuackOS.Vm

open VmaManager

/-! ## Layouts -/

/-- Two ranges without a common address. -/
def RangesApart (p q : ℕ × ℕ) : Prop := ∀ a, ¬ ((p.1 ≤ a ∧ a < p.2) ∧ q.1 ≤ a ∧ a < q.2)

namespace Layout

variable (l : Layout)

/-- The null page, the code, the data, the page below the stack and the stack. -/
def ranges : List (ℕ × ℕ) :=
  [(0, 0x1000), (l.codeStart, l.codeEnd), (l.dataStart, l.dataEnd),
    (l.stackStart - 0x1000, l.stackStart), (l.stackStart, l.stackEnd)]

/-- A page-aligned layout whose regions have no address in common. -/
structure Legal : Prop where
  aligned : ∀ r ∈ l.ranges, r.1 % 4096 = 0 ∧ r.2 % 4096 = 0
  page : 0x1000 ≤ l.stackStart
  apart : l.ranges.Pairwise RangesApart
  heap_ge : l.dataEnd ≤ l.heapStart
  heap_lt : l.heapStart < l.stackStart - 0x1000

end Layout

/-- A lookup finds an area of this type with these permissions. -/
def Classified (s : MmServer) (pid vaddr : ℕ) (regionType : VmRegionType) (perms : VmPerms) : Prop :=
  ∃ m e, s.vmas pid = some m ∧ m.find vaddr = some (some e) ∧ e.regionType = regionType ∧
    e.perms = perms

/-- What the areas of a process have to be after its setup. -/
structure SetUp (s : MmServer) (pid : ℕ) (l : Layout) : Prop where
  code : ∀ a, l.codeStart ≤ a → a < l.codeEnd → Classified s pid a .code .rx
  data : ∀ a, l.dataStart ≤ a → a < l.dataEnd → Classified s pid a .data .rw
  stack : ∀ a, l.stackStart ≤ a → a < l.stackEnd → Classified s pid a .stack .rw
  null : ∀ a < 0x1000, Classified s pid a .guard .none
  below : ∀ a, l.stackStart - 0x1000 ≤ a → a < l.stackStart → Classified s pid a .guard .none
  brk : ∀ n, (∀ r ∈ l.ranges, RangesApart (l.heapStart, l.heapStart + n) r) →
    ∃ s', s.handleBrk pid (l.heapStart + n) = some (s', .ok (l.heapStart + n))

/-- The setup succeeds, and leaves the areas as they have to be. -/
def LayoutSound (s : MmServer) (pid : ℕ) (l : Layout) : Prop :=
  ∃ s', s.initProcessVma pid l = some (s', .ok ()) ∧ SetUp s' pid l

/-! ## Inserting areas that are apart -/

/-- Two areas without a common address. -/
def VmaEntry.Apart (x y : VmaEntry) : Prop := x.endVaddr ≤ y.startVaddr ∨ y.endVaddr ≤ x.startVaddr

section InsertAll

variable {m m' : VmaManager} {A B L L' es fs : List VmaEntry} {e z : VmaEntry}

theorem insertAll_append (h : insertAll es m = some (m', .ok ())) :
    insertAll (es ++ fs) m = insertAll fs m' := by
  induction es generalizing m with
  | nil =>
    cases h
    rfl
  | cons e es ih =>
    rw [insertAll] at h
    rw [List.cons_append, insertAll]
    cases hrun : m.insert e with
    | none =>
      rw [hrun] at h
      cases h
    | some p =>
      obtain ⟨m₁, r₁⟩ := p
      rw [hrun] at h
      cases r₁ with
      | error err => cases h
      | ok u => exact ih h

/-- An empty area is refused. -/
theorem insertAll_empty (he : e.endVaddr ≤ e.startVaddr) :
    insertAll (e :: es) m = some (m, .error .invalidArgument) := by
  have hrun : m.insert e = some (m, .error .invalidArgument) := if_pos (decide_eq_true he)
  rw [insertAll, hrun]
  rfl

/-- An area that is apart from all others is put among them, or merged with a neighbour. -/
theorem Insertion.of_apart {r : Except MmError Unit} (h : Insertion L e L' r) (hord : Ordered L)
    (he : e.startVaddr < e.endVaddr) (hroom : L.length < maxVmaEntries)
    (hapart : ∀ x ∈ L, x.Apart e) : r = .ok () ∧ Ordered L' ∧ L'.length ≤ L.length + 1 ∧
      (∀ y ∈ L', ∃ x ∈ e :: L, y.regionType = x.regionType) ∧
      ∀ z : VmaEntry, z.startVaddr < z.endVaddr → z.Apart e → (∀ x ∈ L, x.Apart z) →
        ∀ y ∈ L', y.Apart z := by
  have hord' : Ordered L' := by
    refine h.ordered hord fun _ _ _ p hp hjoin n hn hlt => ?_
    rcases hapart n hn with hbefore | hbehind
    · have := hord.nonempty n hn
      omega
    · exact hbehind
  unfold VmaEntry.Apart at hapart ⊢
  cases h with
  | empty he' => omega
  | full _ hlen => omega
  | overlap _ _ hx hlo hhi =>
    have := hapart _ hx
    omega
  | @intoPrev _ _ A B p hL hjoin hB =>
    subst hL
    have hend := hjoin.1
    refine ⟨rfl, hord', by simp, fun y hy => ?_, fun z hz hze hzL y hy => ?_⟩
    · rcases List.mem_append.mp hy with hy | hy
      · exact ⟨y, by simp [hy], rfl⟩
      · rcases List.mem_cons.mp hy with rfl | hy
        · exact ⟨p, by simp, rfl⟩
        · exact ⟨y, by simp [hy], rfl⟩
    · rcases List.mem_append.mp hy with hy | hy
      · exact hzL y (by simp [hy])
      · rcases List.mem_cons.mp hy with rfl | hy
        · have := hzL p (by simp)
          simp only
          omega
        · exact hzL y (by simp [hy])
  | @intoNext _ _ A B n hL hjoin hA =>
    subst hL
    have hend := hjoin.1
    refine ⟨rfl, hord', by simp, fun y hy => ?_, fun z hz hze hzL y hy => ?_⟩
    · rcases List.mem_append.mp hy with hy | hy
      · exact ⟨y, by simp [hy], rfl⟩
      · rcases List.mem_cons.mp hy with rfl | hy
        · exact ⟨n, by simp, rfl⟩
        · exact ⟨y, by simp [hy], rfl⟩
    · rcases List.mem_append.mp hy with hy | hy
      · exact hzL y (by simp [hy])
      · rcases List.mem_cons.mp hy with rfl | hy
        · have := hzL n (by simp)
          simp only
          omega
        · exact hzL y (by simp [hy])
  | added _ _ hL hA hB =>
    subst hL
    refine ⟨rfl, hord', by simp [Nat.add_assoc], fun y hy => ?_, fun z hz hze hzL y hy => ?_⟩
    · refine ⟨y, ?_, rfl⟩
      rcases List.mem_append.mp hy with hy | hy
      · simp [hy]
      · rcases List.mem_cons.mp hy with rfl | hy <;> simp [*]
    · rcases List.mem_append.mp hy with hy | hy
      · exact hzL y (by simp [hy])
      · rcases List.mem_cons.mp hy with rfl | hy
        · exact hze.symm
        · exact hzL y (by simp [hy])

/-- **Areas that are apart from each other are all inserted**, and no other type comes into the
table. -/
theorem insertAll_spec (h : Rep m L) (hord : Ordered L) (hes : ∀ e ∈ es, e.startVaddr < e.endVaddr)
    (hroom : L.length + es.length ≤ maxVmaEntries) (hpair : es.Pairwise VmaEntry.Apart)
    (hapart : ∀ e ∈ es, ∀ x ∈ L, x.Apart e) :
    ∃ m' L', insertAll es m = some (m', .ok ()) ∧ Rep m' L' ∧ Ordered L' ∧
      ∀ y ∈ L', ∃ x ∈ es ++ L, y.regionType = x.regionType := by
  induction es generalizing m L with
  | nil => exact ⟨m, L, rfl, h, hord, fun y hy => ⟨y, hy, rfl⟩⟩
  | cons e es ih =>
    rw [List.length_cons] at hroom
    obtain ⟨m₁, r₁, L₁, hrun, hrep₁, hends⟩ := h.insert_spec hord e
    obtain ⟨rfl, hord₁, hlen₁, htypes₁, hkeep⟩ := hends.of_apart hord
      (hes e (List.mem_cons_self ..)) (by omega) (hapart e (List.mem_cons_self ..))
    obtain ⟨hfirst, hrest⟩ := List.pairwise_cons.mp hpair
    obtain ⟨m', L', hrun', hrep', hord', htypes⟩ := ih hrep₁ hord₁
      (fun z hz => hes z (List.mem_cons_of_mem e hz)) (by omega) hrest fun z hz y hy =>
        hkeep z (hes z (List.mem_cons_of_mem e hz)) (hfirst z hz).symm
          (hapart z (List.mem_cons_of_mem e hz)) y hy
    refine ⟨m', L', ?_, hrep', hord', fun y hy => ?_⟩
    · rw [insertAll, hrun]
      exact hrun'
    · obtain ⟨x, hx, hxy⟩ := htypes y hy
      rcases List.mem_append.mp hx with hx | hx
      · exact ⟨x, by simp [hx], hxy⟩
      · obtain ⟨w, hw, hwx⟩ := htypes₁ x hx
        refine ⟨w, ?_, hxy.trans hwx⟩
        rcases List.mem_cons.mp hw with rfl | hw <;> simp [*]

end InsertAll

/-! ## The areas of a layout -/

namespace Layout

/-- The areas other than the heap, empty ones too. -/
def regions (l : Layout) : List VmaEntry :=
  [.newGuard 0, .newCode l.codeStart l.codeEnd, .newData l.dataStart l.dataEnd,
    .newGuard (l.stackStart - 0x1000), .newStack l.stackStart l.stackEnd]

/-- The areas that are inserted before the heap. -/
def front (l : Layout) : List VmaEntry :=
  [.newGuard 0] ++ (if l.codeEnd > l.codeStart then [.newCode l.codeStart l.codeEnd] else []) ++
    (if l.dataEnd > l.dataStart then [.newData l.dataStart l.dataEnd] else [])

/-- The areas that would be inserted behind it. -/
def back (l : Layout) : List VmaEntry :=
  (if l.stackStart > 0x1000 then [.newGuard (l.stackStart - 0x1000)] else []) ++
    (if l.stackEnd > l.stackStart then [.newStack l.stackStart l.stackEnd] else [])

variable {l : Layout}

theorem areas_of_heap (h : 0 < l.heapStart) :
    l.areas = l.front ++ .newHeap l.heapStart l.heapStart :: l.back := by
  simp [areas, front, back, if_pos h]

theorem areas_of_no_heap (h : l.heapStart = 0) : l.areas = l.front ++ l.back := by
  simp [areas, front, back, h]

theorem sublist_ite {c : Prop} [Decidable c] {α : Type} (x : α) :
    (if c then [x] else []).Sublist [x] := by
  split
  · exact List.Sublist.refl _
  · exact List.nil_sublist _

theorem front_append_back_sublist (l : Layout) : (l.front ++ l.back).Sublist l.regions :=
  (((List.Sublist.refl [VmaEntry.newGuard 0]).append (sublist_ite _)).append (sublist_ite _)).append
    ((sublist_ite _).append (sublist_ite _))

theorem front_back_nonempty : ∀ e ∈ l.front ++ l.back, e.startVaddr < e.endVaddr := by
  intro e he
  unfold front back at he
  simp only [List.mem_append, List.mem_cons, List.not_mem_nil, or_false, List.mem_ite_nil_right] at he
  rcases he with ((rfl | ⟨h, rfl⟩) | ⟨h, rfl⟩) | ⟨h, rfl⟩ | ⟨h, rfl⟩
  · exact Nat.succ_pos _
  · exact h
  · exact h
  · exact Nat.lt_add_of_pos_right (Nat.succ_pos _)
  · exact h

/-- The ranges that are apart are the areas'. -/
theorem Legal.regions_apart (h : l.Legal) : l.regions.Pairwise fun x y =>
    x.startVaddr < x.endVaddr → y.startVaddr < y.endVaddr → x.Apart y := by
  have hmap : l.ranges = l.regions.map fun x => (x.startVaddr, x.endVaddr) := by
    have hend : l.stackStart - 0x1000 + 4096 = l.stackStart := by
      have := h.page
      omega
    simp only [ranges, regions, VmaEntry.newGuard, VmaEntry.newCode, VmaEntry.newData,
      VmaEntry.newStack, VmaEntry.anon, List.map_cons, List.map_nil, hend]
  have hapart := h.apart
  rw [hmap, List.pairwise_map] at hapart
  refine hapart.imp fun {x y} hxy hx hy => ?_
  have h1 := hxy x.startVaddr
  have h2 := hxy y.startVaddr
  simp only at h1 h2
  unfold VmaEntry.Apart
  omega

/-- **Everything but the heap can be inserted.** -/
theorem Legal.insertAll (h : l.Legal) {es : List VmaEntry} (hsub : es.Sublist (l.front ++ l.back)) :
    ∃ m' L', VmaManager.insertAll es VmaManager.new = some (m', .ok ()) ∧ Rep m' L' ∧ Ordered L' ∧
      ∀ y ∈ L', y.regionType ≠ .heap := by
  have hnonempty : ∀ e ∈ es, e.startVaddr < e.endVaddr :=
    fun e he => front_back_nonempty e (hsub.subset he)
  have hregions := hsub.trans l.front_append_back_sublist
  have hpair : es.Pairwise VmaEntry.Apart := by
    refine List.Pairwise.imp_of_mem (fun {x y} hx hy hxy => ?_) (h.regions_apart.sublist hregions)
    exact hxy (hnonempty x hx) (hnonempty y hy)
  have hlen : es.length ≤ 5 := hregions.length_le
  obtain ⟨m', L', hrun, hrep, hord, htypes⟩ := insertAll_spec rep_new ordered_nil hnonempty
    (by rw [List.length_nil, maxVmaEntries]; omega) hpair fun _ _ _ hx => nomatch hx
  refine ⟨m', L', hrun, hrep, hord, fun y hy => ?_⟩
  obtain ⟨x, hx, hxy⟩ := htypes y hy
  rw [List.append_nil] at hx
  rw [hxy]
  have hmem := hregions.subset hx
  simp only [regions, List.mem_cons, List.not_mem_nil, or_false] at hmem
  rcases hmem with rfl | rfl | rfl | rfl | rfl <;> exact fun h => nomatch h

end Layout

/-! ## The setup of a new process -/

section Init

variable {s s' : MmServer} {pid asid : ℕ} {l : Layout}

/-- A process that was not there is registered without areas. -/
theorem vmas_register (hfresh : s.vmas pid = none) (hreg : s.registerProcess pid asid = (s', .ok ())) :
    s'.vmas pid = some VmaManager.new := by
  unfold MmServer.registerProcess ProcessTable.insert at hreg
  cases hfree : Slots.firstFree maxProcesses s.processes.slots with
  | none =>
    rw [hfree] at hreg
    cases hreg
  | some i =>
    rw [hfree] at hreg
    cases hreg
    have hnone : Slots.lookup maxProcesses s.processes.slots (·.pid = pid) = none :=
      Option.map_eq_none_iff.mp hfresh
    have hnew := Slots.lookup_insert hnone hfree (a := ⟨pid, VmaManager.new, asid⟩)
      (decide_eq_true rfl)
    exact congrArg (Option.map (·.vmaManager)) hnew

/-- **With a heap the setup is refused**, at the heap. -/
theorem init_of_heap (hl : l.Legal) (hheap : 0 < l.heapStart)
    (hnew : s.vmas pid = some VmaManager.new) :
    ∃ s', s.initProcessVma pid l = some (s', .error .invalidArgument) := by
  obtain ⟨m', -, hrun, -⟩ := hl.insertAll (List.sublist_append_left l.front l.back)
  have hall : insertAll l.areas VmaManager.new = some (m', .error .invalidArgument) := by
    rw [Layout.areas_of_heap hheap, insertAll_append hrun]
    exact insertAll_empty le_rfl
  obtain ⟨s', hs', -⟩ := MmServer.onVmas_of_some (f := insertAll l.areas) hnew hall
  exact ⟨s', hs'⟩

/-- **Without a heap the setup succeeds, and no break is granted.** -/
theorem init_of_no_heap (hl : l.Legal) (hheap : l.heapStart = 0)
    (hnew : s.vmas pid = some VmaManager.new) :
    ∃ s', s.initProcessVma pid l = some (s', .ok ()) ∧
      ∀ b, ∃ s'', s'.handleBrk pid b = some (s'', .error .noVma) := by
  obtain ⟨m', L', hrun, hrep, hord, htypes⟩ := hl.insertAll (List.Sublist.refl _)
  rw [← Layout.areas_of_no_heap hheap] at hrun
  obtain ⟨s', hs', hself, -⟩ := MmServer.onVmas_of_some (f := insertAll l.areas) hnew hrun
  refine ⟨s', hs', fun b => ?_⟩
  obtain ⟨m₂, r, L₂, hbrk, -, hends⟩ := hrep.brk_spec hord b
  have hr : r = .error .noVma := by
    cases hends with
    | noHeap => rfl
    | same hL hx | below hL hx | emptied hL hx | moved hL hx | lost hL hx =>
      exact absurd hx (htypes _ (by simp [hL]))
  subst hr
  obtain ⟨s₂, hs₂, -⟩ := handleBrk_of_some hself hbrk
  exact ⟨s₂, hs₂⟩

/-- **No layout gets what is asked of the setup of a new process**: with a heap the setup is
refused, and without one no break is granted. -/
theorem init_fails (hl : l.Legal) (hfresh : s.vmas pid = none)
    (hreg : s.registerProcess pid asid = (s', .ok ())) :
    ¬ LayoutSound s' pid l ∧
      (0 < l.heapStart → ∃ s₁, s'.initProcessVma pid l = some (s₁, .error .invalidArgument)) := by
  have hnew := vmas_register hfresh hreg
  refine ⟨?_, fun hheap => init_of_heap hl hheap hnew⟩
  rintro ⟨s₁, hinit, hsetup⟩
  rcases Nat.eq_zero_or_pos l.heapStart with hzero | hpos
  · obtain ⟨s₂, hs₂, hbrk⟩ := init_of_no_heap hl hzero hnew
    rw [hs₂] at hinit
    cases hinit
    -- the empty heap is clear of everything
    obtain ⟨s₃, hs₃⟩ := hsetup.brk 0 fun r _ a ha => by
      have := ha.1
      simp only at this
      omega
    obtain ⟨s₄, hs₄⟩ := hbrk (l.heapStart + 0)
    rw [hs₄] at hs₃
    cases hs₃
  · obtain ⟨s₂, hs₂⟩ := init_of_heap hl hpos hnew
    rw [hs₂] at hinit
    cases hinit

end Init

/-! ## The layout of the source's test -/

/-- The layout of `init_process_vma_sets_up_regions`. -/
def testLayout : Layout :=
  { codeStart := 0x10000, codeEnd := 0x20000, dataStart := 0x20000, dataEnd := 0x30000,
    stackStart := 0x7FFFF000, stackEnd := 0x80000000, heapStart := 0x30000 }

theorem testLayout_legal : testLayout.Legal := by
  refine ⟨by decide, by decide, ?_, by decide, by decide⟩
  simp only [Layout.ranges, testLayout, List.pairwise_cons, List.mem_cons, List.not_mem_nil, or_false,
    forall_eq_or_imp, forall_eq, RangesApart]
  refine ⟨⟨?_, ?_, ?_, ?_⟩, ⟨?_, ?_, ?_⟩, ⟨?_, ?_⟩, ?_, ?_⟩ <;> grind

/-- The layout of the test does not get what is asked. -/
theorem init_fails_test :
    ¬ LayoutSound ((MmServer.new 0).registerProcess 1 1).1 1 testLayout ∧
      (0 < testLayout.heapStart → ∃ s₁, ((MmServer.new 0).registerProcess 1 1).1.initProcessVma 1
        testLayout = some (s₁, .error .invalidArgument)) :=
  @init_fails (MmServer.new 0) _ 1 1 _ testLayout_legal rfl rfl

/-- **The layout of the source's own test is refused**, before the stack is there. -/
theorem init_refuses : testLayout.Legal ∧ ∃ s m,
    ((MmServer.new 0).registerProcess 1 1).1.initProcessVma 1 testLayout =
      some (s, .error .invalidArgument) ∧ s.vmas 1 = some m ∧ m.len = 3 ∧
      m.find 0x7FFFF100 = some none :=
  ⟨testLayout_legal, _, _, rfl, rfl, rfl, rfl⟩

end QuackOS.Vm
