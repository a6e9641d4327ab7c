import QuackOS.Mm.Clone
import QuackOS.Mm.Unmapping

/-!
# Mapping a page when frames are short

`sys_map_page` checks its first allocation only.  The tables that the walk to the leaf lacks are
allocated by `find_pte_create`, and `PageTable::map` panics when there is no frame for one of them.

* `missingTables` — how many tables the walk lacks;
* `descend_cases` — `find_pte_create` finds the leaf just when there is a frame for each;
* `mapClean_iff` — `sys_map_page` answers just when it is refused, the page is mapped, there is no
  frame at all, or there is one for the page and one for each missing table.
-/

namespace QuackOS.Mm

open Radix (reach)

/-- The tables that the walk along a path lacks: once one is missing, so are all below it. -/
def missingTables (page : ℕ → Index → Word) : List Index → ℕ → ℕ
  | idx :: j :: rest, n =>
      match Pte.child (page n idx) with
      | some m => missingTables page (j :: rest) m
      | none => rest.length + 1
  | _, _ => 0

/-- The call answers; with an error it has changed no translation, and the frame it took is back
on the free list. -/
def MapClean (cpu : Cpu) (ph : Phys) (root va prot : ℕ) : Prop :=
  ∃ ret ph', sysMapPage cpu ph va prot = some (ret, ph') ∧
    (ret = 0 ∨ ret = -einval ∨ ret = -enomem) ∧
      (ret ≠ 0 → (∀ va', translate ph' root va' = translate ph root va') ∧ ph'.free = ph.free)

/-- If the call needs frames and gets the first one, there is also one for each missing table. -/
def EnoughFrames (ph : Phys) (root va : ℕ) : Prop :=
  badAddr va = false → isMapped (view root) ph (va / 4096) = false → ph.free ≠ [] →
    missingTables ph.page (indexes (va / 4096)) root < ph.free.length

section Walk

variable {pt : PageTable} {ph ph' : Phys} {p r : List Index} {n : ℕ} {i j : Index}

theorem missingTables_congr {page page' : ℕ → Index → Word} (root : ℕ)
    (h : ∀ q m, q.length ≤ 3 → reach Pte.child page root q = some m → page' m = page m)
    (hp : reach Pte.child page root p = some n) (hlen : p.length + r.length ≤ 4) :
    missingTables page' r n = missingTables page r n := by
  induction r generalizing p n with
  | nil => rfl
  | cons i r ih =>
    cases r with
    | nil => rfl
    | cons j r =>
      simp only [List.length_cons] at hlen ih
      rw [missingTables, missingTables, h p n (by omega) hp]
      cases hc : Pte.child (page n i) with
      | none => rfl
      | some m =>
        refine ih (p := p ++ [i]) ?_ ?_
        · rw [Radix.reach_concat, hp, Option.bind_some, hc]
        · rw [List.length_append, List.length_singleton]
          omega

/-- A walk that does not find the slot lacks a table. -/
theorem missingTables_pos (hne : r ≠ []) (hf : PageTable.find ph r n = none) :
    0 < missingTables ph.page r n := by
  induction r generalizing n with
  | nil => exact absurd rfl hne
  | cons i r ih =>
    cases r with
    | nil => cases hf
    | cons j r =>
      rw [missingTables]
      cases hc : Pte.child (ph.page n i) with
      | none => exact Nat.succ_pos _
      | some m =>
        refine ih (List.cons_ne_nil j r) ?_
        rw [PageTable.find, if_neg (Pte.table_of_child hc), Pte.ppn_of_child hc] at hf
        exact hf

/-- A level of the walk where the table is there. -/
theorem nextTable_of_child {m : ℕ} (hc : Pte.child (ph.page n i) = some m) :
    pt.nextTable ph n i = some (some m, pt, ph) := by
  rw [PageTable.nextTable, if_neg (Pte.table_of_child hc), Pte.ppn_of_child hc]

/-- A level where it is missing takes the next free frame, if there is one. -/
theorem nextTable_of_missing (hv : pt.ownsRoot = false) (hok : ph.Ok)
    (hc : Pte.child (ph.page n i) = none) :
    (ph.free = [] ∧ pt.nextTable ph n i = some (none, pt, ph)) ∨
      ∃ f rest, ph.free = f :: rest ∧
        pt.nextTable ph n i = some (some f, pt, hung ph f rest n i) := by
  rw [PageTable.nextTable, if_pos (Pte.not_table_iff.mpr hc)]
  rcases allocPage_cases hok with ⟨hnil, ha⟩ | ⟨f, rest, hfree, ha⟩
  · exact Or.inl ⟨hnil, by rw [ha]⟩
  · refine Or.inr ⟨f, rest, hfree, ?_⟩
    have hf : f < 2 ^ 36 := hok.lt_of_tracked (hok.tracked f (by simp [hfree]))
    rw [ha]
    dsimp only
    rw [trackFrame_of_view hv, Option.map_some, Pte.ppn_newTable hf]
    rfl

/-- What a walk comes to when it needs `k` frames. -/
def WalkEnds (pt : PageTable) (ph : Phys) (r : List Index) (n k : ℕ) : Prop :=
  (k ≤ ph.free.length ∧ ∃ l ph', PageTable.descend r n pt ph = some (some l, pt, ph')) ∨
    (ph.free.length < k ∧ ∃ ph', PageTable.descend r n pt ph = some (none, pt, ph'))

/-- A level that takes a frame. -/
theorem WalkEnds.step {m f k : ℕ} {rest : List ℕ} {s : List Index} (h : WalkEnds pt ph' s m k)
    (hfree : ph.free = f :: rest) (hfree' : ph'.free = rest)
    (hd : PageTable.descend r n pt ph = PageTable.descend s m pt ph') :
    WalkEnds pt ph r n (k + 1) := by
  unfold WalkEnds at h ⊢
  rw [hfree, List.length_cons, hd]
  rw [hfree'] at h
  exact h.imp (fun h => ⟨Nat.succ_le_succ h.1, h.2⟩) (fun h => ⟨Nat.succ_lt_succ h.1, h.2⟩)

/-- From the first missing table on every level takes a frame. -/
theorem descend_missing (hv : pt.ownsRoot = false) (hok : ph.Ok) (hn : n ∉ ph.free)
    (hc : Pte.child (ph.page n i) = none) : WalkEnds pt ph (i :: j :: r) n (r.length + 1) := by
  induction r generalizing ph n i j with
  | nil =>
    rcases nextTable_of_missing hv hok hc with ⟨hnil, hnext⟩ | ⟨f, rest, hfree, hnext⟩
    · exact Or.inr ⟨by rw [hnil]; decide, ph, by rw [PageTable.descend, hnext]⟩
    · refine Or.inl ⟨by rw [hfree]; simp, (f, j), hung ph f rest n i, ?_⟩
      rw [PageTable.descend, hnext]
      rfl
  | cons k r ih =>
    rcases nextTable_of_missing hv hok hc with ⟨hnil, hnext⟩ | ⟨f, rest, hfree, hnext⟩
    · exact Or.inr ⟨by rw [hnil]; simp, ph, by rw [PageTable.descend, hnext]⟩
    · -- the new table is empty
      have hnf : f ≠ n := by
        rintro rfl
        exact hn (by simp [hfree])
      have hblank : Pte.child ((hung ph f rest n i).page f j) = none := by
        rw [hung, Phys.set_page_of_ne hnf, Phys.pop_page_self]
        exact Pte.child_zero
      have hfresh : f ∉ (hung ph f rest n i).free := by
        have := hok.nodup
        rw [hfree, List.nodup_cons] at this
        exact this.1
      have hok' : (hung ph f rest n i).Ok := (hok.pop hfree).set
      exact (ih hok' hfresh hblank).step hfree rfl (by rw [PageTable.descend, hnext])

/-- **`find_pte_create` finds the leaf just when there is a frame for each missing table.** -/
theorem descend_cases (h : pt.Wf ph) (hv : pt.ownsRoot = false)
    (hp : reach Pte.child ph.page pt.rootPpn p = some n) (hlen : p.length + r.length = 4)
    (hne : r ≠ []) : WalkEnds pt ph r n (missingTables ph.page r n) := by
  induction r generalizing p n with
  | nil => exact absurd rfl hne
  | cons i r ih =>
    cases r with
    | nil => exact Or.inl ⟨Nat.zero_le _, (n, i), ph, rfl⟩
    | cons j r =>
      simp only [List.length_cons] at hlen ih
      cases hc : Pte.child (ph.page n i) with
      | none =>
        have hmissing : missingTables ph.page (i :: j :: r) n = r.length + 1 := by
          rw [missingTables, hc]
        rw [hmissing]
        exact descend_missing hv h.ok (h.node_live p n (by omega) hp).2 hc
      | some m =>
        have hmissing : missingTables ph.page (i :: j :: r) n = missingTables ph.page (j :: r) m := by
          rw [missingTables, hc]
        have hdescend : PageTable.descend (i :: j :: r) n pt ph =
            PageTable.descend (j :: r) m pt ph := by
          rw [PageTable.descend, nextTable_of_child hc]
        rw [hmissing, WalkEnds, hdescend]
        refine ih (p := p ++ [i]) ?_ ?_ (List.cons_ne_nil j r)
        · rw [Radix.reach_concat, hp, Option.bind_some, hc]
        · rw [List.length_append, List.length_singleton]
          omega

end Walk

/-! ## The call -/

section Call

variable {cpu : Cpu} {ph : Phys} {root va prot : ℕ}

/-- Taking a frame does not concern a table. -/
theorem wf_pop {pt : PageTable} {f : ℕ} {rest : List ℕ} (h : pt.Wf ph)
    (hfree : ph.free = f :: rest) : pt.Wf (ph.pop f rest) := by
  have hblank : (ph.pop f rest).page f = fun _ => 0#64 := Phys.pop_page_self
  have hzero : ph.popFill f rest (fun _ => 0#64) = ph.pop f rest := by
    rw [Phys.popFill, Phys.fill, ← hblank, Function.update_eq_self]
  rw [← hzero]
  exact wf_popFill h hfree

/-- `PageTable::map`, which panics when `find_pte_create` finds nothing. -/
theorem map_cases {f v : ℕ} {rest : List ℕ} {fl : PTEFlags} (h : (view root).Wf ph)
    (hfree : ph.free = f :: rest) :
    (missingTables ph.page (indexes v) root ≤ rest.length ∧
      ∃ r, (view root).map (ph.pop f rest) v f fl = some r) ∨
    (rest.length < missingTables ph.page (indexes v) root ∧
      (view root).map (ph.pop f rest) v f fl = none) := by
  have hpop : (view root).Wf (ph.pop f rest) := wf_pop h hfree
  have hsame : missingTables (ph.pop f rest).page (indexes v) root =
      missingTables ph.page (indexes v) root :=
    missingTables_congr (p := []) root (pop_agrees h hfree) rfl (Nat.le_refl 4)
  have hends := @descend_cases (view root) (ph.pop f rest) [] (indexes v) root hpop rfl rfl rfl
    (List.cons_ne_nil _ _)
  rw [hsame] at hends
  rcases hends with ⟨hle, ⟨m, i⟩, ph', hd⟩ | ⟨hlt, ph', hd⟩
  · refine Or.inl ⟨hle, (view root, ph'.set m i (Pte.new f fl)), ?_⟩
    rw [PageTable.map, PageTable.findPteCreate, show (view root).rootPpn = root from rfl, hd]
  · refine Or.inr ⟨hlt, ?_⟩
    rw [PageTable.map, PageTable.findPteCreate, show (view root).rootPpn = root from rfl, hd]

/-- A call that gets a frame for its page and lacks one for a table panics. -/
theorem sysMapPage_of_short {f : ℕ} {rest : List ℕ} (h : (view root).Wf ph)
    (hcpu : currentPageTable cpu = view root) (hgood : badAddr va = false)
    (hm : isMapped (view root) ph (va / 4096) = false) (hfree : ph.free = f :: rest)
    (hshort : rest.length < missingTables ph.page (indexes (va / 4096)) root) :
    sysMapPage cpu ph va prot = none := by
  rcases allocPage_cases h.ok with ⟨hnil, -⟩ | ⟨f', rest', hfree', ha⟩
  · rw [hnil] at hfree
    cases hfree
  · obtain ⟨rfl, rfl⟩ := List.cons.inj (hfree'.symm.trans hfree)
    rcases @map_cases ph root f' (va / 4096) rest' (protFlags prot) h hfree with ⟨hle, -⟩ | ⟨-, hmap⟩
    · omega
    · simp only [sysMapPage, hcpu, hgood, hm, ha, hmap, Bool.false_eq_true, if_false,
        Option.map_none]

/-- **`sys_map_page` answers just when it has what it needs**, or does not get as far. -/
theorem mapClean_iff (h : (view root).Wf ph) (hcpu : currentPageTable cpu = view root)
    (va prot : ℕ) : MapClean cpu ph root va prot ↔ EnoughFrames ph root va := by
  have hrefused : ∀ ret, (ret = -einval ∨ ret = -enomem) →
      sysMapPage cpu ph va prot = some (ret, ph) → MapClean cpu ph root va prot :=
    fun ret hret hs => ⟨ret, ph, hs, Or.inr hret, fun _ => ⟨fun _ => rfl, rfl⟩⟩
  have hmapped : ∀ ph', sysMapPage cpu ph va prot = some (0, ph') → MapClean cpu ph root va prot :=
    fun ph' hs => ⟨0, ph', hs, Or.inl rfl, fun h => absurd rfl h⟩
  cases hbad : badAddr va with
  | true =>
    refine iff_of_true (hrefused _ (Or.inl rfl) ?_) fun hgood => absurd hbad (by rw [hgood]; decide)
    rw [sysMapPage, if_pos hbad]
  | false =>
  cases hm : isMapped (view root) ph (va / 4096) with
  | true =>
    obtain ⟨ph', hs, -⟩ := @sysMapPage_of_isMapped ph root prot cpu va hcpu hbad hm
    exact iff_of_true (hmapped ph' hs) fun _ hnot => absurd hm (by rw [hnot]; decide)
  | false =>
  rcases allocPage_cases h.ok with ⟨hnil, ha⟩ | ⟨f, rest, hfree, ha⟩
  · refine iff_of_true (hrefused _ (Or.inr rfl) ?_) fun _ _ hne => absurd hnil hne
    simp only [sysMapPage, hcpu, hbad, hm, ha, Bool.false_eq_true, if_false]
  · have henough : EnoughFrames ph root va ↔
        missingTables ph.page (indexes (va / 4096)) root ≤ rest.length := by
      unfold EnoughFrames
      rw [hfree, List.length_cons]
      exact ⟨fun h => Nat.le_of_lt_succ (h hbad hm (List.cons_ne_nil f rest)),
        fun h _ _ _ => Nat.lt_succ_of_le h⟩
    rw [henough]
    rcases @map_cases ph root f (va / 4096) rest (protFlags prot) h hfree with
      ⟨hle, r, hmap⟩ | ⟨hlt, hmap⟩
    · refine iff_of_true (hmapped r.2 ?_) hle
      simp only [sysMapPage, hcpu, hbad, hm, ha, hmap, Bool.false_eq_true, if_false,
        Option.map_some]
    · refine iff_of_false ?_ (not_le.mpr hlt)
      rintro ⟨ret, ph', hs, -⟩
      rw [sysMapPage_of_short h hcpu hbad hm hfree hlt] at hs
      cases hs

/-- A new table on a machine with sixteen frames. -/
theorem mapClean_iff_sixteen : ∃ pt ph₁,
    createKernelMappedPageTable sixteenFrames = some (.ok pt, ph₁) ∧
      (MapClean ⟨0x50000000, 0⟩ ph₁ pt.rootPpn 0x400000 3 ↔
        EnoughFrames ph₁ pt.rootPpn 0x400000) := by
  obtain ⟨pt, ph₁, ph₂, hc, hcpu, hrun⟩ := @createAndCall_spec [] (by decide)
  obtain ⟨kept, h⟩ := runUser_userTable sixteenFrames_ok.newLife hc hcpu hrun
  obtain rfl : ph₁ = ph₂ := Option.some.inj hrun
  have hroot : ph₁.Live pt.rootPpn := h.wf.node_live [] pt.rootPpn (by decide) rfl
  exact ⟨pt, ph₁, hc, mapClean_iff h.wf
    (currentPageTable_token hcpu (Phys.Ok.ne_zero_of_tracked hroot.1)) 0x400000 3⟩

end Call

/-! ## Six frames -/

/-- A machine with six free frames: five for a new table, and one more. -/
def sixFrames : Phys where
  page := fun _ _ => 0#64
  free := [0x50000, 0x50001, 0x50002, 0x50003, 0x50004, 0x50005]
  trackBase := 0x50000
  track := fun i => decide (6 ≤ i)
  taken := []
  given := []

theorem sixFrames_ok : sixFrames.Ok := by
  refine ⟨by decide, by decide, by decide, fun f hf => ?_⟩
  obtain ⟨-, hle, -⟩ := Phys.tracked_iff.mp hf
  simp only [sixFrames, decide_eq_false_iff_not, List.mem_cons, List.not_mem_nil, or_false] at *
  omega

/-- **With one free frame left the first page of a new table panics the kernel.** -/
theorem last_frame_panics : ∃ pt ph₁,
    createKernelMappedPageTable sixFrames = some (.ok pt, ph₁) ∧
      (⟨0x50000000, 0⟩ : Cpu).ttbr0 = pt.token ∧ ph₁.free = [0x50005] ∧
      sysMapPage ⟨0x50000000, 0⟩ ph₁ 0x400000 3 = none ∧
      ¬ MapClean ⟨0x50000000, 0⟩ ph₁ pt.rootPpn 0x400000 3 := by
  obtain ⟨pt, ph₁, hc, -⟩ := exists_created sixFrames 1 (by decide)
  obtain ⟨root, l1, tr, lo, mid, rest, hcr⟩ := create_spec sixFrames_ok hc
  have htaken := hcr.taken_from
  simp only [sixFrames, List.cons.injEq] at htaken
  have hfree : ph₁.free = [0x50005] := by rw [hcr.free, ← htaken.2.2.2.2.2]
  have hroot : pt.rootPpn = root := by rw [hcr.handle]
  have hcpu : (⟨0x50000000, 0⟩ : Cpu).ttbr0 = pt.token := by
    rw [PageTable.token, hroot, ← htaken.1]
  have hview : currentPageTable ⟨0x50000000, 0⟩ = view root := by
    rw [← hroot]
    apply currentPageTable_token hcpu
    rw [hroot, ← htaken.1]
    decide
  have hno : NoLastTable ph₁ root := fun p n hp => hcr.reach_three sixFrames_ok hp
  have hshort : ([] : List ℕ).length < missingTables ph₁.page (indexes 0x400) root :=
    missingTables_pos (List.cons_ne_nil _ _) (hno.findPte 0x400)
  have hrun : sysMapPage ⟨0x50000000, 0⟩ ph₁ 0x400000 3 = none :=
    sysMapPage_of_short (hcr.userTable sixFrames_ok).wf hview rfl
      (by rw [isMapped, hno.findPte]; rfl) hfree hshort
  refine ⟨pt, ph₁, hc, hcpu, hfree, hrun, ?_⟩
  rintro ⟨ret, ph', hs, -⟩
  rw [hrun] at hs
  cases hs

end QuackOS.Mm
