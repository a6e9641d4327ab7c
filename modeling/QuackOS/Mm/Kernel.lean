import QuackOS.Mm.Walk

/-!
# The table a new address space starts with

`create_kernel_mapped_page_table` takes five frames: the root, one level-1 table, the tracker
page and two level-2 tables, of which one holds the 512 identity blocks of the gigabyte from
`0x40000000` on and the other two device blocks.

* `Created` — the frames taken and what they hold afterwards;
* `create_spec` — **a successful call leaves exactly this**;
* `Created.wf`, `Created.leaf_identity` — the table is well formed and maps kernel memory to
  itself.
-/

namespace QuackOS.Mm

open Radix (reach stop IsTree)

/-- The state after a successful `create_kernel_mapped_page_table`. -/
structure Created (ph : Phys) (pt : PageTable) (ph' : Phys) (root l1 tr lo mid : ℕ)
    (rest : List ℕ) : Prop where
  handle : pt = ⟨root, some tr, true⟩
  taken_from : ph.free = root :: l1 :: tr :: lo :: mid :: rest
  ok : ph'.Ok
  free : ph'.free = rest
  base : ph'.trackBase = ph.trackBase
  taken : ph'.taken = mid :: lo :: tr :: l1 :: root :: ph.taken
  given : ph'.given = ph.given
  page_root : ph'.page root = Function.update (fun _ => 0) 0 (Pte.newTable l1)
  page_l1 : ph'.page l1 =
    Function.update (Function.update (fun _ => 0) 0 (Pte.newTable lo)) 1 (Pte.newTable mid)
  page_lo : ph'.page lo =
    Function.update (Function.update (fun _ => 0) 0x48 (deviceBlock 0x09000000)) 0x50
      (deviceBlock 0x0a000000)
  page_mid : ph'.page mid = kernelBlock
  tr_count : ph'.page tr countIx = 3
  tr_next : ph'.page tr nextTagIx = 0
  tr_frames : ph'.page tr 0 = BitVec.ofNat 64 l1 ∧ ph'.page tr 1 = BitVec.ofNat 64 lo ∧
    ph'.page tr 2 = BitVec.ofNat 64 mid
  page_other : ∀ g, g ∉ [root, l1, tr, lo, mid] → ph'.page g = ph.page g

section Create

variable {pt pt' : PageTable} {ph ph' : Phys} {f : ℕ}

/-- The first frame a handle tracks needs a tracker page. -/
theorem trackFrame_first (hown : pt.ownsRoot = true) (hnone : pt.trackerHead = none) (hok : ph.Ok)
    (h : pt.trackFrame ph f = some (pt', ph')) :
    ∃ tr rest, ph.free = tr :: rest ∧ pt' = { pt with trackerHead := some tr } ∧
      ph' = ((((ph.pop tr rest).set tr countIx 0).set tr nextTagIx 0).set tr 0
        (BitVec.ofNat 64 f)).set tr countIx 1 := by
  rcases allocPage_cases hok with ⟨-, ha⟩ | ⟨tr, rest, hfree, ha⟩
  · simp [PageTable.trackFrame, PageTable.firstTracker, hown, hnone, ha] at h
  · refine ⟨tr, rest, hfree, ?_⟩
    have hcount : (((ph.pop tr rest).set tr countIx 0).set tr nextTagIx 0).page tr countIx = 0 := by
      simp [countIx, nextTagIx]
    simp only [PageTable.trackFrame, hown, if_true, PageTable.firstTracker, hnone, ha, hcount] at h
    cases h
    exact ⟨by rw [hown], rfl⟩

/-- The next frames go into the tracker page while there is room. -/
theorem trackFrame_next {tr c : ℕ} (hown : pt.ownsRoot = true) (htr : pt.trackerHead = some tr)
    (hc : (ph.page tr countIx).toNat = c) (hlt : c < trackerCapacity) :
    pt.trackFrame ph f = some (pt, (ph.set tr (Fin.ofNat 512 c) (BitVec.ofNat 64 f)).set tr countIx
      (BitVec.ofNat 64 (c + 1))) := by
  simp only [PageTable.trackFrame, hown, if_true, PageTable.firstTracker, htr, hc, hlt]

theorem allocTable_ok (hok : ph.Ok) (h : allocTable pt ph = some (.ok (f, pt', ph'))) :
    ∃ rest, ph.free = f :: rest ∧ (ph.pop f rest).Ok ∧
      pt.trackFrame (ph.pop f rest) f = some (pt', ph') := by
  rcases allocPage_cases hok with ⟨-, ha⟩ | ⟨g, rest, hfree, ha⟩
  · simp [allocTable, ha] at h
  · simp only [allocTable, ha, Option.map_eq_some_iff, Except.ok.injEq, Prod.mk.injEq] at h
    obtain ⟨⟨pt₁, ph₁⟩, ht, rfl, rfl, rfl⟩ := h
    exact ⟨rest, hfree, hok.pop hfree, ht⟩

theorem new_spec (hok : ph.Ok) (h : PageTable.new ph = some (pt, ph')) :
    ∃ root rest, ph.free = root :: rest ∧ pt = ⟨root, none, true⟩ ∧ ph' = ph.pop root rest := by
  rcases allocPage_cases hok with ⟨-, ha⟩ | ⟨root, rest, hfree, ha⟩
  · simp [PageTable.new, ha] at h
  · simp only [PageTable.new, ha, Option.some.injEq, Prod.mk.injEq] at h
    exact ⟨root, rest, hfree, h.1.symm, h.2.symm⟩

/-- A call that a run of it shows to succeed, with the number of frames it leaves free. -/
theorem exists_created (ph : Phys) (n : ℕ)
    (h : (createKernelMappedPageTable ph).any
      (fun r => r.1.isOk && r.2.free.length == n) = true) :
    ∃ pt ph', createKernelMappedPageTable ph = some (.ok pt, ph') ∧ ph'.free.length = n := by
  obtain ⟨⟨r, ph'⟩, hrun, hr⟩ := (Option.any_eq_true _ _).mp h
  obtain ⟨hok, hfree⟩ := (Bool.and_eq_true _ _).mp hr
  cases r with
  | error e => cases hok
  | ok pt => exact ⟨pt, ph', hrun, beq_iff_eq.mp hfree⟩

/-- **What `create_kernel_mapped_page_table` leaves.** -/
theorem create_spec (hok : ph.Ok)
    (h : createKernelMappedPageTable ph = some (.ok pt, ph')) :
    ∃ root l1 tr lo mid rest, Created ph pt ph' root l1 tr lo mid rest := by
  unfold createKernelMappedPageTable at h
  split at h
  case h_1 => cases h
  case h_2 pt₀ ph₀ hnew =>
  obtain ⟨root, r₀, hfree, rfl, rfl⟩ := new_spec hok hnew
  have hok₀ : (ph.pop root r₀).Ok := hok.pop hfree
  split at h
  case h_1 => cases h
  case h_2 => cases h
  case h_3 l1 pt₁ ph₁ h₁ =>
  obtain ⟨r₁, hr₁, hok₁, ht₁⟩ := allocTable_ok hok₀ h₁
  obtain ⟨tr, r₂, hr₂, rfl, rfl⟩ := trackFrame_first rfl rfl hok₁ ht₁
  have hok₂ : (((ph.pop root r₀).pop l1 r₁).pop tr r₂).Ok := hok₁.pop hr₂
  dsimp only at h
  split at h
  case h_1 => cases h
  case h_2 => cases h
  case h_3 lo pt₂ ph₂ h₂ =>
  obtain ⟨r₃, hr₃, hok₃, ht₂⟩ := allocTable_ok hok₂.set.set.set.set.set h₂
  simp only [Phys.pop_free] at hr₁ hr₂
  simp only [Phys.set_free, Phys.pop_free] at hr₃
  subst hr₁ hr₂ hr₃
  have hnd := hok.nodup
  simp only [hfree, List.nodup_cons, List.mem_cons, not_or] at hnd
  obtain ⟨⟨h01, h02, h03, h04⟩, ⟨h12, h13, h14⟩, ⟨h23, h24⟩, h34, -⟩ := hnd
  rw [@trackFrame_next _ _ _ tr 1 rfl rfl (by
    simp [Phys.pop_page_of_ne, Phys.set_page_of_ne, h23, Ne.symm h02]) (by decide)] at ht₂
  cases ht₂
  split at h
  case h_1 => cases h
  case h_2 => cases h
  case h_3 mid pt₃ ph₃ h₃ =>
  obtain ⟨rest, hr₄, hok₄, ht₃⟩ := allocTable_ok hok₃.set.set.set h₃
  simp only [Phys.set_free, Phys.pop_free] at hr₄
  subst hr₄
  simp only [List.mem_cons, not_or] at h04 h14 h24 h34
  obtain ⟨h04, -⟩ := h04
  obtain ⟨h14, -⟩ := h14
  obtain ⟨h24, -⟩ := h24
  obtain ⟨h34, -⟩ := h34
  rw [@trackFrame_next _ _ _ tr 2 rfl rfl (by
    simp [Phys.pop_page_of_ne, Phys.set_page_of_ne, h24, Ne.symm h12]) (by decide)] at ht₃
  cases ht₃
  cases h
  have hne : ∀ {a b : ℕ}, ¬ a = b → ¬ b = a := fun h h' => h h'.symm
  have hone : Fin.ofNat 512 1 = (1 : Index) := rfl
  have htwo : Fin.ofNat 512 2 = (2 : Index) := rfl
  refine ⟨root, l1, tr, lo, mid, rest, rfl, hfree, hok₄.set.set.set.fill.set.set, rfl, rfl, rfl,
    rfl, ?_, ?_, ?_, ?_, ?_, ?_, ?_, fun g hg => ?_⟩
  · simp [Phys.pop_page_of_ne, Phys.set_page_of_ne, Phys.fill_page_of_ne, h01, h02, h03, h04]
  · simp [Phys.pop_page_of_ne, Phys.set_page_of_ne, Phys.fill_page_of_ne, hne h01, h12, h13, h14]
  · simp [Phys.pop_page_of_ne, Phys.set_page_of_ne, Phys.fill_page_of_ne, hne h13, hne h23,
      h34]
  · simp [Phys.set_page_of_ne, hne h34]
  · simp [Phys.set_page_of_ne, Phys.fill_page_of_ne, h23, h24, hne h12]
  · rw [hone, htwo]
    simp [Phys.pop_page_of_ne, Phys.set_page_of_ne, Phys.fill_page_of_ne, h23, h24, hne h12,
      hne h02, countIx, nextTagIx]
  · rw [hone, htwo]
    simp [Phys.pop_page_of_ne, Phys.set_page_of_ne, Phys.fill_page_of_ne, h23, h24, hne h12,
      hne h02, countIx, nextTagIx]
  · simp only [List.mem_cons, List.not_mem_nil, or_false, not_or] at hg
    obtain ⟨hg0, hg1, hg2, hg3, hg4⟩ := hg
    simp [Phys.pop_page_of_ne, Phys.set_page_of_ne, Phys.fill_page_of_ne, hg0, hg1, hg2, hg3, hg4]

end Create

/-! ## The table that was created -/

namespace Created

variable {ph ph' : Phys} {pt : PageTable} {root l1 tr lo mid : ℕ} {rest : List ℕ}
  (h : Created ph pt ph' root l1 tr lo mid rest) (hok : ph.Ok)
include h hok

theorem nodup : (root :: l1 :: tr :: lo :: mid :: rest).Nodup := h.taken_from ▸ hok.nodup

theorem live {f : ℕ} (hf : f ∈ [root, l1, tr, lo, mid]) : ph'.Live f := by
  have hmem : f ∈ ph.free := by
    rw [h.taken_from]
    exact List.mem_append_left rest hf
  refine ⟨?_, ?_⟩
  · rw [Phys.tracked_congr h.base]
    exact hok.tracked f hmem
  · rw [h.free]
    have hnd : ([root, l1, tr, lo, mid] ++ rest).Nodup := h.nodup hok
    exact List.disjoint_of_nodup_append hnd hf

theorem lt {f : ℕ} (hf : f ∈ [root, l1, tr, lo, mid]) : f < 2 ^ 36 :=
  h.ok.lt_of_live (h.live hok hf)

theorem child_root (i : Index) : Pte.child (ph'.page root i) = if i = 0 then some l1 else none := by
  rw [h.page_root, Function.update_apply]
  split
  · exact Pte.child_newTable (h.lt hok (by simp))
  · exact Pte.child_zero

theorem child_l1 (i : Index) : Pte.child (ph'.page l1 i) =
    if i = 1 then some mid else if i = 0 then some lo else none := by
  rw [h.page_l1, Function.update_apply, Function.update_apply]
  split
  · exact Pte.child_newTable (h.lt hok (by simp))
  split
  · exact Pte.child_newTable (h.lt hok (by simp))
  · exact Pte.child_zero

omit hok in
theorem child_lo (i : Index) : Pte.child (ph'.page lo i) = none := by
  rw [h.page_lo, Function.update_apply, Function.update_apply]
  split
  · decide
  split
  · decide
  · exact Pte.child_zero

omit hok in
theorem child_mid (i : Index) : Pte.child (ph'.page mid i) = none := by
  rw [h.page_mid]
  decide +revert +kernel

/-- The tables of a new address space, with the paths to them. -/
theorem reach_eq_some {q : List Index} {n : ℕ}
    (hq : reach Pte.child ph'.page root q = some n) :
    (q = [] ∧ n = root) ∨ (q = [0] ∧ n = l1) ∨ (q = [0, 0] ∧ n = lo) ∨ (q = [0, 1] ∧ n = mid) := by
  rcases q with - | ⟨a, q⟩
  · cases hq
    exact Or.inl ⟨rfl, rfl⟩
  rw [reach, h.child_root hok] at hq
  split at hq
  case isFalse => cases hq
  subst a
  rcases q with - | ⟨b, q⟩
  · cases hq
    exact Or.inr (Or.inl ⟨rfl, rfl⟩)
  rw [Option.bind_some, reach, h.child_l1 hok] at hq
  split at hq
  · subst b
    rcases q with - | ⟨c, q⟩
    · cases hq
      exact Or.inr (Or.inr (Or.inr ⟨rfl, rfl⟩))
    · rw [Option.bind_some, reach, h.child_mid] at hq
      cases hq
  split at hq
  · subst b
    rcases q with - | ⟨c, q⟩
    · cases hq
      exact Or.inr (Or.inr (Or.inl ⟨rfl, rfl⟩))
    · rw [Option.bind_some, reach, h.child_lo] at hq
      cases hq
  · cases hq

theorem reach_mid : reach Pte.child ph'.page root [0, 1] = some mid := by
  rw [reach, h.child_root hok, if_pos rfl, Option.bind_some, reach, h.child_l1 hok, if_pos rfl]
  rfl

/-- **A new table is well formed.** -/
theorem wf : pt.Wf ph' := by
  have hnd := h.nodup hok
  simp only [List.nodup_cons, List.mem_cons, not_or] at hnd
  rw [h.handle]
  refine ⟨h.ok, fun p q n _ _ hp hq => ?_, fun p n _ hp => ?_, fun t ht => ?_, fun t ht p _ hp => ?_⟩
  · rcases h.reach_eq_some hok hp with ⟨rfl, rfl⟩ | ⟨rfl, rfl⟩ | ⟨rfl, rfl⟩ | ⟨rfl, rfl⟩ <;>
      rcases h.reach_eq_some hok hq with ⟨rfl, hn⟩ | ⟨rfl, hn⟩ | ⟨rfl, hn⟩ | ⟨rfl, hn⟩ <;>
      first
      | rfl
      | (exfalso; subst hn; tauto)
  · rcases h.reach_eq_some hok hp with ⟨-, rfl⟩ | ⟨-, rfl⟩ | ⟨-, rfl⟩ | ⟨-, rfl⟩ <;>
      exact h.live hok (by simp)
  · cases ht
    exact h.live hok (by simp)
  · cases ht
    rcases h.reach_eq_some hok hp with ⟨-, hn⟩ | ⟨-, hn⟩ | ⟨-, hn⟩ | ⟨-, hn⟩ <;> tauto

/-- **Kernel memory is mapped by identity blocks.** -/
theorem leaf_identity (k x : Index) :
    leaf ph' pt.rootPpn [0, 1, k, x] = some (2, kernelBlock k) := by
  rw [h.handle, leaf, show ([0, 1, k, x] : List Index) = [0, 1] ++ k :: x :: [] from rfl,
    Radix.stop_of_reach (h.reach_mid hok) (by simp), stop, h.child_mid, h.page_mid]
  have : isLeaf 2 (kernelBlock k) = true := by
    decide +revert +kernel
  simp [this]

/-- **Nothing is mapped from the second gigabyte on.** -/
theorem leaf_above {p : ℕ} (hlo : 0x80000 ≤ p) (hhi : p < 2 ^ 36) :
    leaf ph' root (indexes p) = none := by
  have hzero : ∀ {level : ℕ}, (some (level, 0#64)).filter (fun r => isLeaf r.1 r.2) = none := by
    intro level
    rw [Option.filter_some, if_neg (Bool.eq_false_iff.mp (isLeaf_zero level))]
  rw [indexes]
  by_cases h0 : Fin.ofNat 512 (p >>> 27) = 0
  · -- the walk ends in the level-1 table
    have h1 : (Fin.ofNat 512 (p >>> 18)).val ≠ 0 ∧ (Fin.ofNat 512 (p >>> 18)).val ≠ 1 := by
      have := congrArg Fin.val h0
      simp only [Fin.val_ofNat, Nat.shiftRight_eq_div_pow] at this ⊢
      have hz : p / 2 ^ 27 % 512 = 0 := this
      omega
    have hl1 : reach Pte.child ph'.page root [0] = some l1 := by
      rw [reach, h.child_root hok, if_pos rfl]
      rfl
    have hw : ph'.page l1 (Fin.ofNat 512 (p >>> 18)) = 0 := by
      rw [h.page_l1, Function.update_of_ne, Function.update_of_ne]
      · exact fun hc => h1.1 (congrArg Fin.val hc)
      · exact fun hc => h1.2 (congrArg Fin.val hc)
    rw [h0, leaf, show ∀ a b c : Index, ([0, a, b, c] : List Index) = [0] ++ a :: b :: [c] from
      fun _ _ _ => rfl, stop_of_not_table hl1 (by rw [hw]; exact Pte.child_zero), hw]
    exact hzero
  · have hw : ph'.page root (Fin.ofNat 512 (p >>> 27)) = 0 := by
      rw [h.page_root, Function.update_of_ne h0]
    rw [leaf, show ∀ a b c d : Index, ([a, b, c, d] : List Index) = [] ++ a :: b :: [c, d] from
      fun _ _ _ _ => rfl, stop_of_not_table (n := root) rfl (by rw [hw]; exact Pte.child_zero), hw]
    exact hzero

end Created

end QuackOS.Mm
