import QuackOS.Mm.Calls
import QuackOS.Mm.Clone

/-!
# Unmapping and protecting a page

`sys_unmap_page` and `sys_mprotect` look for the leaf slot of a page, and `PageTable::unmap` and
`remap` then insist that it is valid.  A table of the last level has 512 slots, so a page has a slot
as soon as any of its neighbours was mapped.

* `MappedAt` — the page at an address is mapped;
* `UnmapExact`, `ProtectExact` — the calls return, and return 0 just when it is;
* `unmapExact_iff`, `protectExact_iff` — this is so just where slots and pages agree;
* `unmap_protect_exact_iff` — **the same after any calls of a thread on a new table**.
-/

namespace QuackOS.Mm

open Radix (reach)

/-- The address is the start of a page of the user half, and the page is mapped by the descriptor
`w`. -/
def MappedAt (ph : Phys) (root va : ℕ) (w : Word) : Prop :=
  badAddr va = false ∧ pageLeaf ph root (va / 4096) = some (3, w)

/-- `sys_unmap_page` returns, with 0 just when the page was mapped, and frees the frame that was
mapped and no other. -/
structure UnmapExact (cpu : Cpu) (ph : Phys) (root va : ℕ) : Prop where
  returns : ∃ ret ph', sysUnmapPage cpu ph va = some (ret, ph') ∧
    (ret = 0 ↔ ∃ w, MappedAt ph root va w)
  frees : ∀ ret ph' w, sysUnmapPage cpu ph va = some (ret, ph') → MappedAt ph root va w →
    ph'.free = Pte.ppn w :: ph.free
  keeps : ∀ ret ph', sysUnmapPage cpu ph va = some (ret, ph') →
    (∀ w, ¬ MappedAt ph root va w) → ph'.free = ph.free

/-- `sys_mprotect` returns, with 0 just when the page was mapped. -/
def ProtectExact (cpu : Cpu) (ph : Phys) (root va prot : ℕ) : Prop :=
  ∃ ret ph', sysMprotect cpu ph va prot = some (ret, ph') ∧ (ret = 0 ↔ ∃ w, MappedAt ph root va w)

/-- If the address passes the check and the page has a slot, the slot is valid. -/
def SlotAgrees (ph : Phys) (root va : ℕ) : Prop :=
  badAddr va = false → reach Pte.child ph.page root ((indexes (va / 4096)).take 3) ≠ none →
    ∃ w, pageLeaf ph root (va / 4096) = some (3, w)

section Slots

variable {cpu : Cpu} {ph : Phys} {root va v : ℕ} {kept : List ℕ}

/-- The slot of a page, in the table of the last level. -/
theorem findPte_of_reach {n : ℕ} (h : reach Pte.child ph.page root ((indexes v).take 3) = some n) :
    (view root).findPte ph v = some (n, Fin.ofNat 512 v) := by
  rw [findPte_eq (p := (indexes v).take 3) rfl, show (view root).rootPpn = root from rfl, h]
  rfl

theorem findPte_of_reach_none (h : reach Pte.child ph.page root ((indexes v).take 3) = none) :
    (view root).findPte ph v = none := by
  rw [findPte_eq (p := (indexes v).take 3) rfl, show (view root).rootPpn = root from rfl, h]
  rfl

theorem pageLeaf_of_reach {n : ℕ} (h : reach Pte.child ph.page root ((indexes v).take 3) = some n) :
    pageLeaf ph root v = if isLeaf 3 (ph.page n (Fin.ofNat 512 v))
      then some (3, ph.page n (Fin.ofNat 512 v)) else none :=
  leaf_last h rfl

/-- A page with no slot is not mapped. -/
theorem pageLeaf_of_reach_none (h : reach Pte.child ph.page root ((indexes v).take 3) = none)
    (w : Word) : pageLeaf ph root v ≠ some (3, w) := by
  intro hw
  obtain ⟨p, n, i, hp, hl, hr, -⟩ := (leaf_three_iff rfl).mp hw
  rw [hp, List.take_left' hl, hr] at h
  cases h

/-- A slot that is not valid maps nothing. -/
theorem isLeaf_of_invalid {w : Word} (h : Pte.isValid w = false) : isLeaf 3 w = false := by
  rw [← Bool.not_eq_true] at h ⊢
  exact fun hl => h (Pte.isValid_of_isTable hl)

/-- The slot of a page whose address passes the check: there is none, or it is not valid, or the
page is mapped. -/
inductive Slot (ph : Phys) (root v : ℕ) : Prop
  | none (table : reach Pte.child ph.page root ((indexes v).take 3) = none)
  | invalid (n : ℕ) (table : reach Pte.child ph.page root ((indexes v).take 3) = some n)
      (word : Pte.isValid (ph.page n (Fin.ofNat 512 v)) = false)
  | valid (n : ℕ) (table : reach Pte.child ph.page root ((indexes v).take 3) = some n)
      (word : Pte.isValid (ph.page n (Fin.ofNat 512 v)) = true)
      (page : pageLeaf ph root v = some (3, ph.page n (Fin.ofNat 512 v)))

theorem slot (h : UserTable root kept ph) (v : ℕ) : Slot ph root v := by
  cases hr : reach Pte.child ph.page root ((indexes v).take 3) with
  | none => exact .none hr
  | some n =>
    cases hv : Pte.isValid (ph.page n (Fin.ofNat 512 v)) with
    | false => exact .invalid n hr hv
    | true =>
      obtain ⟨f, prot, -, hword, hleaf⟩ := h.word_valid hr rfl hv
      refine .valid n hr hv ?_
      rw [hword]
      exact hleaf

/-- An address that fails the check is that of no page. -/
theorem not_mappedAt_of_bad (h : badAddr va = true) (w : Word) : ¬ MappedAt ph root va w := by
  rintro ⟨hgood, -⟩
  rw [h] at hgood
  cases hgood

theorem slotAgrees_of_bad (h : badAddr va = true) : SlotAgrees ph root va := by
  intro hgood
  rw [h] at hgood
  cases hgood

/-- A slot that is not valid is one that does not agree. -/
theorem not_slotAgrees_of_invalid {n : ℕ} (hgood : badAddr va = false)
    (hr : reach Pte.child ph.page root ((indexes (va / 4096)).take 3) = some n)
    (hv : Pte.isValid (ph.page n (Fin.ofNat 512 (va / 4096))) = false) :
    ¬ SlotAgrees ph root va := by
  intro hagrees
  obtain ⟨w, hw⟩ := hagrees hgood (by rw [hr]; exact Option.some_ne_none n)
  rw [pageLeaf_of_reach hr, isLeaf_of_invalid hv] at hw
  cases hw

/-- The assertions of `PageTable::unmap` and `remap` fail on a slot that is not valid. -/
theorem calls_of_invalid (hcpu : currentPageTable cpu = view root) {n : ℕ}
    (hgood : badAddr va = false)
    (hr : reach Pte.child ph.page root ((indexes (va / 4096)).take 3) = some n)
    (hv : Pte.isValid (ph.page n (Fin.ofNat 512 (va / 4096))) = false) :
    sysUnmapPage cpu ph va = none ∧ ∀ prot, sysMprotect cpu ph va prot = none := by
  refine ⟨?_, fun prot => ?_⟩
  · simp only [sysUnmapPage, hgood, hcpu, findPte_of_reach hr, PageTable.unmap, hv,
      Bool.false_eq_true, if_false, Option.bind_none]
  · simp only [sysMprotect, hgood, hcpu, findPte_of_reach hr, PageTable.remap, hv,
      Bool.false_eq_true, if_false, Option.map_none]

variable (h : UserTable root kept ph) (hcpu : currentPageTable cpu = view root)
include h hcpu

/-- **`sys_unmap_page` is exact just where slots and pages agree.** -/
theorem unmapExact_iff : UnmapExact cpu ph root va ↔ SlotAgrees ph root va := by
  cases hbad : badAddr va with
  | true =>
    have hrun : sysUnmapPage cpu ph va = some (-einval, ph) := by
      rw [sysUnmapPage, if_pos hbad]
    have hnot := fun w => @not_mappedAt_of_bad ph root va hbad w
    refine iff_of_true ⟨⟨_, _, hrun, ?_⟩, fun ret ph' w _ hw => absurd hw (hnot w), ?_⟩
      (slotAgrees_of_bad hbad)
    · refine iff_of_false (by decide) ?_
      rintro ⟨w, hw⟩
      exact hnot w hw
    · intro ret ph' hs _
      rw [hrun] at hs
      cases hs
      rfl
  | false =>
  have hgood : ¬ badAddr va = true := by
    rw [hbad]
    exact Bool.false_ne_true
  cases slot h (va / 4096) with
  | none table =>
    have hrun : sysUnmapPage cpu ph va = some (-einval, ph) := by
      simp only [sysUnmapPage, if_neg hgood, hcpu, findPte_of_reach_none table]
    have hnot : ∀ w, ¬ MappedAt ph root va w := fun w hw => pageLeaf_of_reach_none table w hw.2
    refine iff_of_true ⟨⟨_, _, hrun, ?_⟩, fun ret ph' w _ hw => absurd hw (hnot w), ?_⟩
      fun _ htable => absurd table htable
    · refine iff_of_false (by decide) ?_
      rintro ⟨w, hw⟩
      exact hnot w hw
    · intro ret ph' hs _
      rw [hrun] at hs
      cases hs
      rfl
  | invalid n table word =>
    refine iff_of_false ?_ (not_slotAgrees_of_invalid hbad table word)
    rintro ⟨⟨ret, ph', hs, -⟩, -, -⟩
    rw [(calls_of_invalid hcpu hbad table word).1] at hs
    cases hs
  | valid n table word page =>
    set w := ph.page n (Fin.ofNat 512 (va / 4096)) with hw
    have hmapped : MappedAt ph root va w := ⟨hbad, page⟩
    have hlive : (ph.set n (Fin.ofNat 512 (va / 4096)) 0).Live (Pte.ppn w) :=
      (h.data_live _ ⟨_, w, rfl, page, rfl⟩).1
    have hrun : sysUnmapPage cpu ph va =
        some (0, (ph.set n (Fin.ofNat 512 (va / 4096)) 0).push (Pte.ppn w)) := by
      simp only [sysUnmapPage, if_neg hgood, hcpu, findPte_of_reach table, PageTable.unmap, word,
        if_true, Option.bind_some, ← hw, freePage_of_live h.wf.ok.set hlive, Option.map_some]
    refine iff_of_true ⟨⟨_, _, hrun, iff_of_true rfl ⟨w, hmapped⟩⟩, ?_, ?_⟩ fun _ _ => ⟨w, page⟩
    · intro ret ph' w' hs hw'
      rw [hrun] at hs
      cases hs
      obtain ⟨-, rfl⟩ := Prod.mk.inj (Option.some.inj (hw'.2.symm.trans page))
      rfl
    · exact fun ret ph' _ hnot => absurd hmapped (hnot w)

/-- **So is `sys_mprotect`.** -/
theorem protectExact_iff (prot : ℕ) : ProtectExact cpu ph root va prot ↔ SlotAgrees ph root va := by
  cases hbad : badAddr va with
  | true =>
    have hrun : sysMprotect cpu ph va prot = some (-einval, ph) := by
      rw [sysMprotect, if_pos hbad]
    refine iff_of_true ⟨_, _, hrun, ?_⟩ (slotAgrees_of_bad hbad)
    refine iff_of_false (by decide) ?_
    rintro ⟨w, hw⟩
    exact not_mappedAt_of_bad hbad w hw
  | false =>
  have hgood : ¬ badAddr va = true := by
    rw [hbad]
    exact Bool.false_ne_true
  cases slot h (va / 4096) with
  | none table =>
    have hrun : sysMprotect cpu ph va prot = some (-enomem, ph) := by
      simp only [sysMprotect, if_neg hgood, hcpu, findPte_of_reach_none table]
    refine iff_of_true ⟨_, _, hrun, ?_⟩ fun _ htable => absurd table htable
    refine iff_of_false (by decide) ?_
    rintro ⟨w, hw⟩
    exact pageLeaf_of_reach_none table w hw.2
  | invalid n table word =>
    refine iff_of_false ?_ (not_slotAgrees_of_invalid hbad table word)
    rintro ⟨ret, ph', hs, -⟩
    rw [(calls_of_invalid hcpu hbad table word).2] at hs
    cases hs
  | valid n table word page =>
    refine iff_of_true ?_ fun _ _ => ⟨_, page⟩
    set w := ph.page n (Fin.ofNat 512 (va / 4096)) with hw
    refine ⟨0, ph.set n (Fin.ofNat 512 (va / 4096)) (Pte.new (Pte.ppn w) (protFlags prot)), ?_,
      iff_of_true rfl ⟨w, hbad, page⟩⟩
    simp only [sysMprotect, if_neg hgood, hcpu, findPte_of_reach table, PageTable.remap, word,
      if_true, ← hw, Option.map_some]

end Slots

section Whole

variable {ph₀ ph₁ ph₂ : Phys} {pt : PageTable} {cpu : Cpu} {ops : List UserOp}

/-- **Unmapping and protecting, after any calls of a thread on a new table**: at every address the
calls return, answer 0 just when the page was mapped, and free its frame, just where a page that has
a slot is mapped. -/
theorem unmap_protect_exact_iff (hok : ph₀.Ok)
    (hc : createKernelMappedPageTable ph₀ = some (.ok pt, ph₁)) (hcpu : cpu.ttbr0 = pt.token)
    (hrun : runUser cpu ph₁ ops = some ph₂) (va prot : ℕ) :
    (UnmapExact cpu ph₂ pt.rootPpn va ↔ SlotAgrees ph₂ pt.rootPpn va) ∧
      (ProtectExact cpu ph₂ pt.rootPpn va prot ↔ SlotAgrees ph₂ pt.rootPpn va) := by
  obtain ⟨kept, h⟩ := runUser_userTable hok hc hcpu hrun
  have hroot : ph₂.Live pt.rootPpn := h.wf.node_live [] pt.rootPpn (by decide) rfl
  have hview := currentPageTable_token hcpu (Phys.Ok.ne_zero_of_tracked hroot.1)
  exact ⟨unmapExact_iff h hview, protectExact_iff h hview prot⟩

/-- A page that was mapped, on a machine with sixteen free frames. -/
theorem unmap_protect_exact_mapped :
    ∃ pt ph₁ ph₂, createKernelMappedPageTable sixteenFrames.newLife = some (.ok pt, ph₁) ∧
      runUser ⟨0x50000000, 0⟩ ph₁ [.mapPage 0x400000 3] = some ph₂ ∧
      (UnmapExact ⟨0x50000000, 0⟩ ph₂ pt.rootPpn 0x400000 ↔ SlotAgrees ph₂ pt.rootPpn 0x400000) ∧
      (ProtectExact ⟨0x50000000, 0⟩ ph₂ pt.rootPpn 0x400000 1 ↔
        SlotAgrees ph₂ pt.rootPpn 0x400000) := by
  obtain ⟨pt, ph₁, ph₂, hc, hcpu, hrun⟩ := @createAndCall_spec [.mapPage 0x400000 3]
    (by decide)
  exact ⟨pt, ph₁, ph₂, hc, hrun,
    unmap_protect_exact_iff sixteenFrames_ok.newLife hc hcpu hrun 0x400000 1⟩

/-- **The neighbour of a page that was mapped**: both calls panic. -/
theorem neighbour_panics :
    ∃ pt ph₁ ph₂, createKernelMappedPageTable sixteenFrames.newLife = some (.ok pt, ph₁) ∧
      (⟨0x50000000, 0⟩ : Cpu).ttbr0 = pt.token ∧
      runUser ⟨0x50000000, 0⟩ ph₁ [.mapPage 0x400000 3] = some ph₂ ∧
      sysUnmapPage ⟨0x50000000, 0⟩ ph₂ 0x401000 = none ∧
      sysMprotect ⟨0x50000000, 0⟩ ph₂ 0x401000 1 = none ∧
      ¬ UnmapExact ⟨0x50000000, 0⟩ ph₂ pt.rootPpn 0x401000 ∧
      ¬ ProtectExact ⟨0x50000000, 0⟩ ph₂ pt.rootPpn 0x401000 1 := by
  obtain ⟨pt, ph₁, ph₂, hc, hcpu, hrun⟩ := @createAndCall_spec [.mapPage 0x400000 3]
    (by decide)
  obtain ⟨kept, h⟩ := runUser_userTable sixteenFrames_ok.newLife hc hcpu hrun
  have hview : currentPageTable ⟨0x50000000, 0⟩ = view pt.rootPpn :=
    currentPageTable_token hcpu (Phys.Ok.ne_zero_of_tracked
      (h.wf.node_live [] pt.rootPpn (by decide) rfl).1)
  obtain ⟨-, rest, hfree⟩ := created_sixteenFrames hc
  have hleaf := fun v w => @leaf_of_mapPage _ ph₁ ph₂ pt ⟨0x50000000, 0⟩ 0x400000 3 0x50005 rest
    sixteenFrames_ok.newLife hc hcpu rfl hfree hrun (indexes v) w rfl
  -- the page at 0x400000 is mapped, in the table that 0x401000 has its slot in
  have hmapped := (hleaf 0x400 _).mpr ⟨rfl, rfl⟩
  have hcalls : sysUnmapPage ⟨0x50000000, 0⟩ ph₂ 0x401000 = none ∧
      ∀ prot, sysMprotect ⟨0x50000000, 0⟩ ph₂ 0x401000 prot = none := by
    cases slot h 0x401 with
    | none table =>
      have hsame : (indexes 0x401).take 3 = (indexes 0x400).take 3 := by decide
      rw [hsame] at table
      exact absurd hmapped (pageLeaf_of_reach_none table _)
    | invalid n table word => exact calls_of_invalid hview (by decide) table word
    | valid n table word page => exact absurd ((hleaf 0x401 _).mp page).1 (by decide)
  refine ⟨pt, ph₁, ph₂, hc, hcpu, hrun, hcalls.1, hcalls.2 1, ?_, ?_⟩
  · rintro ⟨⟨ret, ph', hs, -⟩, -, -⟩
    rw [hcalls.1] at hs
    cases hs
  · rintro ⟨ret, ph', hs, -⟩
    rw [hcalls.2] at hs
    cases hs

end Whole

end QuackOS.Mm
