import QuackOS.Lib.Run
import QuackOS.Mm.Kernel

/-!
# What mapping a page does to other translations

The tables of an address space change by `map`, `remap` and `unmap` only.  `map` replaces a
block descriptor on its way by a table of its own, and that table starts empty.

* `map_leaf`, `remap_leaf`, `unmap_leaf` — the leaves after one operation;
* `map_disturbs_only_blocks` — **the frame condition of `map`**, after any run of the three
  operations on a new table: a translation outside the page survives unless it went through
  a block that the walk to the page met; and a kernel identity address keeps its translation
  as long as no page of its 2 MiB region is mapped.
-/

namespace QuackOS.Mm

open Radix (reach stop IsTree)

/-- The calls that change a table. -/
inductive TableOp where
  | map (vpn ppn : ℕ) (flags : PTEFlags)
  | remap (vpn : ℕ) (flags : PTEFlags)
  | unmap (vpn : ℕ)

/-- One call; `none` when it panics. -/
def TableOp.run : PageTable × Phys → TableOp → Option (PageTable × Phys)
  | (pt, ph), .map vpn ppn flags => pt.map ph vpn ppn flags
  | (pt, ph), .remap vpn flags => (pt.remap ph vpn flags).map fun ph => (pt, ph)
  | (pt, ph), .unmap vpn => (pt.unmap ph vpn).map fun ph => (pt, ph)

/-- A sequence of calls. -/
def runTable (s : PageTable × Phys) (ops : List TableOp) : Option (PageTable × Phys) :=
  ops.foldlM TableOp.run s

section Leaves

variable {pt pt' : PageTable} {ph ph' : Phys} {vpn ppn : ℕ} {fl : PTEFlags} {q : List Index}

theorem isLeaf_new : isLeaf 3 (Pte.new ppn fl) = true := by
  have h3 : ∀ x : Word, (x ||| 0b11) &&& 0b11 = 0b11 := by
    intro x
    apply BitVec.eq_of_getLsbD_eq
    intro i hi
    rw [BitVec.getLsbD_and, BitVec.getLsbD_or]
    cases (0b11 : Word).getLsbD i <;> simp
  have hd : Pte.attrs fl = Pte.attrs fl ||| 0b11 :=
    Pte.attrs_cases fl (fun a => a = a ||| 0b11) (by decide)
  have : Pte.new ppn fl &&& 0b11 = 0b11 := by
    rw [Pte.new_eq_or, hd, ← BitVec.or_assoc]
    exact h3 _
  simp only [isLeaf, if_true, this]
  rfl

/-- The leaves after `map`. -/
theorem map_leaf (h : pt.Wf ph) (hm : pt.map ph vpn ppn fl = some (pt', ph')) :
    pt'.Wf ph' ∧ pt'.rootPpn = pt.rootPpn ∧
      ∀ q, q.length = 4 → leaf ph' pt.rootPpn q =
        if q = indexes vpn then some (3, Pte.new ppn fl)
        else if ∃ b, blockMet ph pt.rootPpn (indexes vpn) = some b ∧ b <+: q then none
        else leaf ph pt.rootPpn q := by
  obtain ⟨ph₁, p, n, i, hg, hp, hl, hr, rfl⟩ := map_spec h hm
  have hr' : reach Pte.child ph₁.page pt'.rootPpn p = some n := by rw [hg.root, hr]
  refine ⟨wf_set_leaf hg.wf hr' hl, hg.root, fun q hq => ?_⟩
  have := leaf_set (i := i) (w := Pte.new ppn fl) hg.wf hr' hl hq
  rw [hg.root, hg.leaf q hq, isLeaf_new, if_pos rfl, ← hp] at this
  exact this

theorem remap_leaf (h : pt.Wf ph) (hm : pt.remap ph vpn fl = some ph') :
    pt.Wf ph' ∧ ∃ w, leaf ph pt.rootPpn (indexes vpn) = (some (3, w)).filter (fun r => isLeaf 3 r.2) ∧
      ∀ q, q.length = 4 → leaf ph' pt.rootPpn q =
        if q = indexes vpn then some (3, Pte.new (Pte.ppn w) fl) else leaf ph pt.rootPpn q := by
  obtain ⟨p, n, i, hp, hl, hr, -, rfl⟩ := remap_spec hm
  refine ⟨wf_set_leaf h hr hl, ph.page n i, ?_, fun q hq => ?_⟩
  · rw [hp, leaf_last hr hl, Option.filter_some]
  · rw [leaf_set h hr hl hq, isLeaf_new, if_pos rfl, ← hp]

theorem unmap_leaf (h : pt.Wf ph) (hm : pt.unmap ph vpn = some ph') :
    pt.Wf ph' ∧ ∃ w, leaf ph pt.rootPpn (indexes vpn) = (some (3, w)).filter (fun r => isLeaf 3 r.2) ∧
      ∀ q, q.length = 4 → leaf ph' pt.rootPpn q =
        if q = indexes vpn then none else leaf ph pt.rootPpn q := by
  obtain ⟨p, n, i, hp, hl, hr, -, rfl⟩ := unmap_spec hm
  refine ⟨wf_set_leaf h hr hl, ph.page n i, ?_, fun q hq => ?_⟩
  · rw [hp, leaf_last hr hl, Option.filter_some]
  · rw [leaf_set h hr hl hq, ← hp]
    rfl

/-- The paths through a block end at it. -/
theorem leaf_of_blockMet {b path : List Index} (hb : blockMet ph pt.rootPpn path = some b)
    (hpath : path.length = 4) (hq : q.length = 4) (hbq : b <+: q) :
    leaf ph pt.rootPpn q = leaf ph pt.rootPpn path := by
  obtain ⟨l, w, hlw, hl, rfl⟩ := blockMet_eq_some hb
  rw [hlw]
  obtain ⟨hstop, hleaf⟩ := Option.filter_eq_some_iff.mp hlw
  obtain ⟨p, i, r, n, rfl, hlp, hr, rfl, hc⟩ := Radix.stop_eq_some hstop
  rw [Nat.zero_add] at hlp
  subst hlp
  rw [List.take_length_add_append] at hbq
  obtain ⟨s, rfl⟩ := hbq
  simp only [List.length_append, List.length_cons, List.length_take] at hpath hq
  have hrne : r ≠ [] := by
    rintro rfl
    simp at hpath
    omega
  obtain ⟨j, s', rfl⟩ := List.exists_cons_of_length_pos (l := s) (by omega)
  rw [show p ++ List.take 1 (i :: r) ++ j :: s' = p ++ i :: j :: s' by simp, leaf,
    stop_of_not_table hr (hc hrne), Option.filter_some, if_pos hleaf]

theorem translate_eq {ph ph' : Phys} {root root' va : ℕ}
    (h : leaf ph' root' (indexes (va / 4096)) = leaf ph root (indexes (va / 4096))) :
    translate ph' root' va = translate ph root va := by
  rw [translate, translate, h]

theorem translate_none {root va : ℕ} (h : leaf ph root (indexes (va / 4096)) = none) :
    translate ph root va = none := by
  simp [translate, h]

end Leaves

/-! ## Kernel identity addresses -/

/-- The 2 MiB region of a kernel address still has its identity block. -/
def Identity (k : Index) (s : PageTable × Phys) : Prop :=
  s.1.Wf s.2 ∧ ∀ x, leaf s.2 s.1.rootPpn [0, 1, k, x] = some (2, kernelBlock k)

/-- Does the call map a page of the 2 MiB region with this number? -/
def TableOp.mapsInto (region : ℕ) : TableOp → Prop
  | .map vpn _ _ => vpn % 2 ^ 36 / 512 = region
  | _ => False

section Identity

variable {s s' : PageTable × Phys} {k : Index}

theorem region_of_take {vpn : ℕ} (h : (indexes vpn).take 3 = [0, 1, k]) :
    vpn % 2 ^ 36 / 512 = 512 + k := by
  have h0 : vpn >>> 27 % 512 = 0 := congrArg (fun q => ((q : List Index)[0]!).val) h
  have h1 : vpn >>> 18 % 512 = 1 := congrArg (fun q => ((q : List Index)[1]!).val) h
  have h2 : vpn >>> 9 % 512 = k := congrArg (fun q => ((q : List Index)[2]!).val) h
  simp only [Nat.shiftRight_eq_div_pow] at h0 h1 h2
  omega

/-- One call keeps the identity block of a region into which it maps nothing. -/
theorem Identity.step {op : TableOp} (h : Identity k s) (hop : ¬ op.mapsInto (512 + k))
    (hrun : op.run s = some s') : Identity k s' := by
  obtain ⟨pt, ph⟩ := s
  obtain ⟨hwf, hid⟩ := h
  -- a mapped page ends at level 3, so it is none of the region
  have hne : ∀ {vpn : ℕ} {w : Word} (x : Index), leaf ph pt.rootPpn (indexes vpn) =
      (some (3, w)).filter (fun r => isLeaf 3 r.2) → [0, 1, k, x] ≠ indexes vpn := by
    intro vpn w x hleaf heq
    rw [← heq, hid x] at hleaf
    have := (Option.filter_eq_some_iff.mp hleaf.symm).1
    simp at this
  cases op with
  | map vpn ppn fl =>
    obtain ⟨pt', ph'⟩ := s'
    obtain ⟨hwf', hroot, hleaf⟩ := map_leaf hwf hrun
    refine ⟨hwf', fun x => ?_⟩
    show leaf ph' pt'.rootPpn _ = _
    rw [hroot, hleaf _ rfl, if_neg, if_neg]
    · exact hid x
    · rintro ⟨b, hb, hbq⟩
      have hsame : leaf ph pt.rootPpn [0, 1, k, x] = leaf ph pt.rootPpn (indexes vpn) :=
        leaf_of_blockMet hb rfl rfl hbq
      obtain ⟨l, w, hlw, -, rfl⟩ := blockMet_eq_some hb
      rw [hid x, hlw] at hsame
      cases hsame
      -- the block met is the region's own
      apply hop
      exact region_of_take (List.prefix_iff_eq_take.mp hbq)
    · intro heq
      apply hop
      apply region_of_take
      rw [← heq]
      rfl
  | remap vpn fl =>
    obtain ⟨ph', hm, rfl⟩ := Option.map_eq_some_iff.mp hrun
    obtain ⟨hwf', w, hw, hleaf⟩ := remap_leaf hwf hm
    refine ⟨hwf', fun x => ?_⟩
    rw [hleaf _ rfl, if_neg (hne x hw)]
    exact hid x
  | unmap vpn =>
    obtain ⟨ph', hm, rfl⟩ := Option.map_eq_some_iff.mp hrun
    obtain ⟨hwf', w, hw, hleaf⟩ := unmap_leaf hwf hm
    refine ⟨hwf', fun x => ?_⟩
    rw [hleaf _ rfl, if_neg (hne x hw)]
    exact hid x

theorem ppn_kernelBlock (k : Index) : Pte.ppn (kernelBlock k) = 0x40000 + k * 512 := by
  decide +revert +kernel

/-- The region of an identity block translates to itself. -/
theorem Identity.translate {va : ℕ} (hlo : 0x40000000 ≤ va) (hhi : va < 0x80000000)
    (h : Identity (Fin.ofNat 512 (va / 2 ^ 21)) s) :
    Mm.translate s.2 s.1.rootPpn va = some ⟨va, kernelBlock (Fin.ofNat 512 (va / 2 ^ 21))⟩ := by
  have hix : indexes (va / 4096) =
      [0, 1, Fin.ofNat 512 (va / 2 ^ 21), Fin.ofNat 512 (va / 4096)] := by
    have h0 : Fin.ofNat 512 ((va / 4096) >>> 27) = 0 := by
      rw [Fin.ext_iff, Fin.val_ofNat, Nat.shiftRight_eq_div_pow]
      show va / 4096 / 2 ^ 27 % 512 = 0
      omega
    have h1 : Fin.ofNat 512 ((va / 4096) >>> 18) = 1 := by
      rw [Fin.ext_iff, Fin.val_ofNat, Nat.shiftRight_eq_div_pow]
      show va / 4096 / 2 ^ 18 % 512 = 1
      omega
    have h2 : (va / 4096) >>> 9 = va / 2 ^ 21 := by
      rw [Nat.shiftRight_eq_div_pow]
      omega
    rw [indexes, h0, h1, h2]
  rw [Mm.translate, if_pos (by omega), hix, h.2]
  simp only [Option.map_some, Option.some.injEq, Translation.mk.injEq, and_true, leafShift,
    ppn_kernelBlock, Fin.val_ofNat]
  omega

end Identity

/-! ## Runs -/

section Runs

variable {ph₀ ph₁ ph ph' : Phys} {pt₀ pt pt' : PageTable} {ops : List TableOp}

theorem wf_runTable (h : pt₀.Wf ph₁) (hrun : runTable (pt₀, ph₁) ops = some (pt, ph)) : pt.Wf ph := by
  refine Run.foldlM_invariant (I := fun s : PageTable × Phys => s.1.Wf s.2) ?_ h hrun
  rintro ⟨pt, ph⟩ op ⟨pt', ph'⟩ - hwf hop
  cases op with
  | map vpn ppn fl => exact (map_leaf hwf hop).1
  | remap vpn fl =>
    obtain ⟨ph', hm, heq⟩ := Option.map_eq_some_iff.mp hop
    cases heq
    exact (remap_leaf hwf hm).1
  | unmap vpn =>
    obtain ⟨ph', hm, heq⟩ := Option.map_eq_some_iff.mp hop
    cases heq
    exact (unmap_leaf hwf hm).1

/-- **Mapping a page disturbs no translation but those through a block on its way.**  On a
table built by `create_kernel_mapped_page_table` and any calls after it, `map` leaves the
translation of every address outside its page as it was, except in the region of a block
descriptor that the walk to the page met, where nothing is mapped afterwards.  So a kernel
identity address keeps its translation as long as no page of its 2 MiB region is mapped. -/
theorem map_disturbs_only_blocks {vpn ppn : ℕ} {fl : PTEFlags} (hok : ph₀.Ok)
    (hc : createKernelMappedPageTable ph₀ = some (.ok pt₀, ph₁))
    (hrun : runTable (pt₀, ph₁) ops = some (pt, ph))
    (hm : pt.map ph vpn ppn fl = some (pt', ph')) :
    (∀ va, va / 4096 ≠ vpn % 2 ^ 36 → translate ph' pt'.rootPpn va =
      if ∃ b, blockMet ph pt.rootPpn (indexes vpn) = some b ∧ b <+: indexes (va / 4096) then none
      else translate ph pt.rootPpn va) ∧
    ∀ va, 0x40000000 ≤ va → va < 0x80000000 →
      (∀ op ∈ ops ++ [.map vpn ppn fl], ¬ op.mapsInto (va / 2 ^ 21)) →
      translate ph' pt'.rootPpn va = some ⟨va, kernelBlock (Fin.ofNat 512 (va / 2 ^ 21))⟩ := by
  obtain ⟨root, l1, tr, lo, mid, rest, hcr⟩ := create_spec hok hc
  have hwf : pt.Wf ph := wf_runTable (hcr.wf hok) hrun
  obtain ⟨-, hroot, hleaf⟩ := map_leaf hwf hm
  refine ⟨fun va hva => ?_, fun va hlo hhi hnear => ?_⟩
  · by_cases h48 : va < 2 ^ 48
    · have hne : indexes (va / 4096) ≠ indexes vpn := by
        intro heq
        have := indexes_inj heq
        omega
      have hq := hleaf (indexes (va / 4096)) rfl
      rw [if_neg hne] at hq
      rw [hroot]
      split
      case isTrue hb =>
        rw [if_pos hb] at hq
        exact translate_none hq
      case isFalse hb =>
        rw [if_neg hb] at hq
        exact translate_eq hq
    · rw [translate, translate, if_neg h48, if_neg h48, ite_self]
  · have hk : va / 2 ^ 21 = 512 + (Fin.ofNat 512 (va / 2 ^ 21) : Index) := by
      rw [Fin.val_ofNat]
      omega
    have hid : Identity (Fin.ofNat 512 (va / 2 ^ 21)) (pt₀, ph₁) :=
      ⟨hcr.wf hok, fun x => hcr.leaf_identity hok _ x⟩
    have hrun' : runTable (pt₀, ph₁) (ops ++ [.map vpn ppn fl]) = some (pt', ph') := by
      rw [runTable, List.foldlM_append]
      show (runTable (pt₀, ph₁) ops).bind _ = _
      rw [hrun]
      simp [TableOp.run, hm]
    refine Identity.translate (s := (pt', ph')) hlo hhi (Run.foldlM_invariant ?_ hid hrun')
    intro s op s' hop hs hstep
    exact hs.step (hk ▸ hnear op hop) hstep

/-- A new table on a machine with sixteen free frames, and some calls on it. -/
def createAndRun (ops : List TableOp) : Option (PageTable × Phys) :=
  match createKernelMappedPageTable sixteenFrames with
  | some (.ok pt, ph) => runTable (pt, ph) ops
  | _ => none

theorem createAndRun_eq_some {s : PageTable × Phys} (h : createAndRun ops = some s) :
    ∃ pt ph, createKernelMappedPageTable sixteenFrames = some (.ok pt, ph) ∧
      runTable (pt, ph) ops = some s := by
  unfold createAndRun at h
  split at h
  case h_1 pt ph hc => exact ⟨pt, ph, hc, h⟩
  case h_2 => cases h

/-- A user page mapped, and then a page of kernel memory mapped over: its neighbour region
keeps its translation. -/
theorem map_disturbs_only_blocks_neighbour :
    ∃ ph₁ ph ph' : Phys, ∃ pt₀ pt pt' : PageTable,
      createKernelMappedPageTable sixteenFrames = some (.ok pt₀, ph₁) ∧
      runTable (pt₀, ph₁) [.map 0x400 0x5f000 ⟨0x17⟩] = some (pt, ph) ∧
      pt.map ph 0x40000 0x5f001 ⟨0x17⟩ = some (pt', ph') ∧
      translate ph' pt'.rootPpn 0x40200000 = some ⟨0x40200000, kernelBlock 1⟩ := by
  have hrun : ((createAndRun [.map 0x400 0x5f000 ⟨0x17⟩]).bind fun s =>
      s.1.map s.2 0x40000 0x5f001 ⟨0x17⟩).isSome = true := by decide
  obtain ⟨⟨pt', ph'⟩, hrun⟩ := Option.isSome_iff_exists.mp hrun
  obtain ⟨⟨pt, ph⟩, hops, hm⟩ := Option.bind_eq_some_iff.mp hrun
  obtain ⟨pt₀, ph₁, hc, hops⟩ := createAndRun_eq_some hops
  have hk : (Fin.ofNat 512 (0x40200000 / 2 ^ 21) : Index) = 1 := by decide
  have hnear : ∀ op ∈ [TableOp.map 0x400 0x5f000 ⟨0x17⟩] ++
      [.map 0x40000 0x5f001 ⟨0x17⟩], ¬ op.mapsInto (0x40200000 / 2 ^ 21) := by
    simp only [List.cons_append, List.nil_append, List.mem_cons, List.not_mem_nil, or_false]
    rintro op (rfl | rfl) <;> simp [TableOp.mapsInto]
  have h := (map_disturbs_only_blocks sixteenFrames_ok hc hops hm).2 0x40200000 (by omega)
    (by omega) hnear
  rw [hk] at h
  exact ⟨ph₁, ph, ph', pt₀, pt, pt', hc, hops, hm, h⟩

/-- Mapping the first page of kernel memory takes the translation of the second away. -/
theorem mapped_page_takes_neighbour :
    ∃ ph ph' : Phys, ∃ pt pt' : PageTable,
      createKernelMappedPageTable sixteenFrames = some (.ok pt, ph) ∧
      pt.map ph 0x40000 0x5f000 ⟨0x17⟩ = some (pt', ph') ∧
      translate ph pt.rootPpn 0x40001000 = some ⟨0x40001000, kernelBlock 0⟩ ∧
      translate ph' pt'.rootPpn 0x40001000 = none := by
  have hrun : (createAndRun [.map 0x40000 0x5f000 ⟨0x17⟩]).isSome = true := by decide
  obtain ⟨⟨pt', ph'⟩, hrun⟩ := Option.isSome_iff_exists.mp hrun
  obtain ⟨pt, ph, hc, hops⟩ := createAndRun_eq_some hrun
  have hm : pt.map ph 0x40000 0x5f000 ⟨0x17⟩ = some (pt', ph') := by
    simpa [runTable, TableOp.run] using hops
  obtain ⟨root, l1, tr, lo, mid, rest, hcr⟩ := create_spec sixteenFrames_ok hc
  have hid : Identity 0 (pt, ph) :=
    ⟨hcr.wf sixteenFrames_ok, fun x => hcr.leaf_identity sixteenFrames_ok 0 x⟩
  have hk : (Fin.ofNat 512 (0x40001000 / 2 ^ 21) : Index) = 0 := by decide
  have hbefore := @Identity.translate (pt, ph) 0x40001000 (by omega) (by omega)
    (by rw [hk]; exact hid)
  rw [hk] at hbefore
  refine ⟨ph, ph', pt, pt', hc, hm, hbefore, ?_⟩
  obtain ⟨-, hroot, hleaf⟩ := map_leaf hid.1 hm
  have hpath : indexes 0x40000 = [0, 1, 0, 0] := by decide
  have hpath' : indexes (0x40001000 / 4096) = [0, 1, 0, 1] := by decide
  rw [hroot]
  apply translate_none
  rw [hpath', hleaf _ rfl, if_neg (by rw [hpath]; decide), if_pos]
  refine ⟨[0, 1, 0], ?_, by decide⟩
  rw [hpath, blockMet, hid.2 0]
  rfl

end Runs

end QuackOS.Mm
