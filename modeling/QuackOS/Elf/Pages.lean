import QuackOS.Elf.Loader
import QuackOS.Mm.Bulk

/-!
# The pages of a table that is being filled

The loader takes a frame, fills it and maps it, and later it writes again to frames that are mapped.

* `shown` — the word of a page, where it is valid; `shown_map` — what `map` makes of it;
* `Clean` — the pages are on frames of their own outside of the table, kept by both steps
  (`Clean.place`, `Clean.fill`);
* `Phys.byte_store` — the bytes of a frame after a copy;
* `map_of_no_frame` — without a free frame a page that lacks a table is not mapped.
-/

namespace QuackOS.Mm

open Radix (reach)

/-! ## Bytes -/

section Bytes

variable {ph : Phys} {f g lo n j : ℕ} {b : ℕ → BitVec 8}

theorem byte_wordsOf (hj : j < 4096) : Bytes.byte (wordsOf b (Fin.ofNat 512 (j / 8))) (j % 8) = b j := by
  have hix : (Fin.ofNat 512 (j / 8)).val = j / 8 := Nat.mod_eq_of_lt (by omega)
  rw [wordsOf, Bytes.byte_ofBytes _ (Nat.mod_lt j (by decide)), if_pos (Nat.mod_lt j (by decide)), hix,
    Nat.div_add_mod]

/-- **A copy into a frame changes the bytes it names.** -/
theorem Phys.byte_store (hj : j < 4096) : (ph.store f lo n b).byte f j =
    if lo ≤ j ∧ j < lo + n then b (j - lo) else ph.byte f j := by
  rw [Phys.byte, Phys.store, Phys.fill_page_self, byte_wordsOf hj]

theorem Phys.byte_congr {ph' : Phys} (h : ph'.page f = ph.page f) : ph'.byte f j = ph.byte f j := by
  rw [Phys.byte, Phys.byte, h]

theorem Phys.fill_fill {ws ws' : Index → Word} : (ph.fill f ws).fill f ws' = ph.fill f ws' := by
  rw [Phys.fill, Phys.fill, Function.update_idem]
  rfl

theorem Phys.fill_self : ph.fill f (ph.page f) = ph := by
  rw [Phys.fill, Function.update_eq_self]

end Bytes

/-! ## The words of the pages -/

/-- The word of a page, where it is valid. -/
def shown (pt : PageTable) (ph : Phys) (v : ℕ) : Option Word :=
  (pt.translateVpnToPte ph v).filter Pte.isValid

section Shown

variable {pt pt' : PageTable} {ph ph' : Phys} {vpn ppn f g v : ℕ} {fl : PTEFlags} {w : Word}
  {ws : Index → Word}

/-- The words of the pages are in the tables. -/
theorem shown_congr (h : ∀ q m, q.length ≤ 3 → reach Pte.child ph.page pt.rootPpn q = some m →
    ph'.page m = ph.page m) (v : ℕ) : shown pt ph' v = shown pt ph v := by
  have hlen : ((indexes v).take 3).length ≤ 3 := List.length_take_le 3 _
  rw [shown, shown, pte_eq (indexes_eq v), pte_eq (indexes_eq v),
    Radix.reach_congr_nodes h (Nat.le_succ_of_le hlen)]
  cases hr : reach Pte.child ph.page pt.rootPpn ((indexes v).take 3) with
  | none => rfl
  | some m => rw [Option.map_some, Option.map_some, h _ m hlen hr]

/-- What `map` makes of the pages. -/
theorem shown_map (h : pt.Wf ph) (hm : pt.map ph vpn ppn fl = some (pt', ph')) (v : ℕ) :
    shown pt' ph' v = if v % 2 ^ 36 = vpn % 2 ^ 36 then some (Pte.new ppn fl) else shown pt ph v := by
  rw [shown, map_pte h hm]
  split
  · rw [Option.filter_some, if_pos isValid_new]
  · split
    · -- a word that was missing is zero now
      rw [shown]
      cases pt.translateVpnToPte ph v with
      | none => rfl
      | some w => rfl
    · rfl

theorem findPte_of_shown : shown pt ph v = some w ↔
    ∃ n i, pt.findPte ph v = some (n, i) ∧ ph.page n i = w ∧ Pte.isValid w = true := by
  rw [shown, Option.filter_eq_some_iff, PageTable.translateVpnToPte, Option.map_eq_some_iff]
  constructor
  · rintro ⟨⟨⟨n, i⟩, hf, rfl⟩, hvalid⟩
    exact ⟨n, i, hf, rfl, hvalid⟩
  · rintro ⟨n, i, hf, rfl, hvalid⟩
    exact ⟨⟨(n, i), hf, rfl⟩, hvalid⟩

/-- A page that is shown is the leaf of its path. -/
theorem leaf_of_shown (h : shown pt ph v = some (Pte.new f fl)) :
    leaf ph pt.rootPpn (indexes v) = some (3, Pte.new f fl) := by
  obtain ⟨n, i, hf, hw, -⟩ := findPte_of_shown.mp h
  obtain ⟨p, hp, hl, hr⟩ := findPte_spec hf
  rw [hp, leaf_last hr hl, hw, isLeaf_new, if_pos rfl]

end Shown

/-! ## No frame left -/

section NoFrame

variable {pt : PageTable} {ph ph' : Phys} {n vpn ppn : ℕ} {r : List Index} {fl : PTEFlags}

theorem findPte_congr (h : ∀ q m, q.length ≤ 3 → reach Pte.child ph.page pt.rootPpn q = some m →
    ph'.page m = ph.page m) (v : ℕ) : pt.findPte ph' v = pt.findPte ph v := by
  have hlen : ((indexes v).take 3).length ≤ 3 := List.length_take_le 3 _
  rw [findPte_eq (indexes_eq v), findPte_eq (indexes_eq v),
    Radix.reach_congr_nodes h (Nat.le_succ_of_le hlen)]

/-- Without a free frame `find_pte_create` finds no more than `find_pte` does. -/
theorem descend_of_no_frame (hnil : ph.free = []) (hf : PageTable.find ph r n = none) :
    PageTable.descend r n pt ph = some (none, pt, ph) := by
  induction r generalizing n with
  | nil => rfl
  | cons i r ih =>
    cases r with
    | nil => cases hf
    | cons j r =>
      rw [PageTable.descend]
      cases hc : Pte.child (ph.page n i) with
      | none =>
        have hnext : pt.nextTable ph n i = some (none, pt, ph) := by
          rw [PageTable.nextTable, if_pos (Pte.not_table_iff.mpr hc), allocPage, hnil]
        rw [hnext]
      | some m =>
        rw [PageTable.find, if_neg (Pte.table_of_child hc), Pte.ppn_of_child hc] at hf
        rw [nextTable_of_child hc]
        exact ih hf

theorem map_of_no_frame (hnil : ph.free = []) (hf : pt.findPte ph vpn = none) :
    pt.map ph vpn ppn fl = none := by
  rw [PageTable.map, PageTable.findPteCreate, descend_of_no_frame hnil hf]

end NoFrame

/-! ## Frames outside of the table -/

section Outside

variable {pt pt' : PageTable} {ph ph' : Phys} {vpn f g v : ℕ} {rest : List ℕ} {fl : PTEFlags}
  {w : Word} {ws : Index → Word}

theorem Outside.fill_agrees (ho : Outside pt ph g) (q : List Index) (m : ℕ) (hq : q.length ≤ 3)
    (hm : reach Pte.child ph.page pt.rootPpn q = some m) : (ph.fill g ws).page m = ph.page m := by
  apply Phys.fill_page_of_ne
  rintro rfl
  exact ho.node q hq hm

theorem Outside.reach_fill (ho : Outside pt ph g) {q : List Index} (hq : q.length ≤ 3) :
    reach Pte.child (ph.fill g ws).page pt.rootPpn q = reach Pte.child ph.page pt.rootPpn q :=
  Radix.reach_congr_nodes ho.fill_agrees (Nat.le_succ_of_le hq)

theorem Outside.wf_fill (ho : Outside pt ph g) (h : pt.Wf ph) : pt.Wf (ph.fill g ws) := by
  refine ⟨h.ok.fill, h.tree.congr ho.fill_agrees, fun q m hq hm => ?_, h.tracker_live,
    fun t ht q hq => ?_⟩
  · rw [ho.reach_fill hq] at hm
    exact h.node_live q m hq hm
  · rw [ho.reach_fill hq]
    exact h.tracker_node t ht q hq

theorem Outside.fill {x : ℕ} (ho : Outside pt ph g) (hx : Outside pt ph x) :
    Outside pt (ph.fill g ws) x := by
  refine ⟨hx.live, hx.tracker, fun q hq => ?_⟩
  rw [ho.reach_fill hq]
  exact hx.node q hq

/-- A table whose pages are on frames outside of it, no two pages on one. -/
structure Clean (pt : PageTable) (ph : Phys) : Prop where
  wf : pt.Wf ph
  page : ∀ v w, shown pt ph v = some w → ∃ f fl, w = Pte.new f fl ∧ f < 2 ^ 36 ∧ Outside pt ph f
  inj : ∀ v u w w', shown pt ph v = some w → shown pt ph u = some w' → Pte.ppn w = Pte.ppn w' →
    v % 2 ^ 36 = u % 2 ^ 36

theorem Clean.outside (h : Clean pt ph) (hv : shown pt ph v = some w) : Outside pt ph (Pte.ppn w) := by
  obtain ⟨f, fl, rfl, hf, ho⟩ := h.page v w hv
  rwa [Pte.ppn_new hf]

/-- **A write to the frame of a page.** -/
theorem Clean.fill (h : Clean pt ph) (ho : Outside pt ph g) : Clean pt (ph.fill g ws) := by
  refine ⟨ho.wf_fill h.wf, fun v w hv => ?_, fun v u w w' hv hu => ?_⟩
  · rw [shown_congr ho.fill_agrees] at hv
    obtain ⟨f, fl, hw, hf, hout⟩ := h.page v w hv
    exact ⟨f, fl, hw, hf, ho.fill hout⟩
  · rw [shown_congr ho.fill_agrees] at hv hu
    exact h.inj v u w w' hv hu

/-- A frame was taken, filled and mapped: the table shows the page on the frame, and the other pages
as before, with their contents. -/
structure Placed (pt : PageTable) (ph : Phys) (vpn f : ℕ) (fl : PTEFlags) (ws : Index → Word)
    (pt' : PageTable) (ph' : Phys) : Prop where
  clean : Clean pt' ph'
  root : pt'.rootPpn = pt.rootPpn
  lt : f < 2 ^ 36
  shown_eq : ∀ v, shown pt' ph' v =
    if v % 2 ^ 36 = vpn % 2 ^ 36 then some (Pte.new f fl) else shown pt ph v
  page : ph'.page f = ws
  kept : ∀ v w, shown pt ph v = some w → ph'.page (Pte.ppn w) = ph.page (Pte.ppn w)

theorem Clean.place (h : Clean pt ph) (hfree : ph.free = f :: rest)
    (hm : pt.map (ph.popFill f rest ws) vpn f fl = some (pt', ph')) :
    Placed pt ph vpn f fl ws pt' ph' := by
  have hmem : f ∈ ph.free := by simp [hfree]
  have hf : f < 2 ^ 36 := h.wf.ok.lt_of_tracked (h.wf.ok.tracked f hmem)
  have hwf : pt.Wf (ph.popFill f rest ws) := wf_popFill h.wf hfree
  obtain ⟨hself, hpage⟩ := (outside_popFill_self h.wf hfree).map hwf hm
  have hshown : ∀ v, shown pt' ph' v =
      if v % 2 ^ 36 = vpn % 2 ^ 36 then some (Pte.new f fl) else shown pt ph v := by
    intro v
    rw [shown_map hwf hm, shown_congr (popFill_agrees h.wf hfree)]
  -- the frames of the other pages are not free, and `map` does not touch them
  have hne : ∀ v w, shown pt ph v = some w → Pte.ppn w ≠ f := by
    rintro v w hv rfl
    exact (h.outside hv).live.2 hmem
  have hout : ∀ v w, shown pt ph v = some w →
      Outside pt' ph' (Pte.ppn w) ∧ ph'.page (Pte.ppn w) = ph.page (Pte.ppn w) := by
    intro v w hv
    obtain ⟨ho, hkept⟩ := ((h.outside hv).popFill h.wf hfree).map hwf hm
    exact ⟨ho, hkept.trans (popFill_page_of_ne (hne v w hv))⟩
  refine ⟨⟨(map_leaf hwf hm).1, fun v w hv => ?_, fun v u w w' hv hu heq => ?_⟩, (map_leaf hwf hm).2.1,
    hf, hshown, hpage.trans popFill_page_self, fun v w hv => (hout v w hv).2⟩
  · rw [hshown] at hv
    split at hv
    · cases hv
      exact ⟨f, fl, rfl, hf, hself⟩
    · obtain ⟨g, fl', rfl, hg, -⟩ := h.page v w hv
      have ho := (hout v _ hv).1
      rw [Pte.ppn_new hg] at ho
      exact ⟨g, fl', rfl, hg, ho⟩
  · rw [hshown] at hv hu
    split at hv <;> split at hu
    · omega
    · cases hv
      rw [Pte.ppn_new hf] at heq
      exact absurd heq.symm (hne u w' hu)
    · cases hu
      rw [Pte.ppn_new hf] at heq
      exact absurd heq (hne v w hv)
    · exact h.inj v u w w' hv hu heq

end Outside

/-- A table that maps no page is clean. -/
theorem Created.clean {ph ph' : Phys} {pt : PageTable} {root l1 tr lo mid : ℕ} {rest : List ℕ}
    (h : Created ph pt ph' root l1 tr lo mid rest) (hok : ph.Ok) :
    Clean pt ph' ∧ ∀ v, pt.findPte ph' v = none := by
  have hfind : ∀ v, pt.findPte ph' v = none := by
    have hlast : NoLastTable ph' pt.rootPpn := by
      rw [h.handle]
      exact fun p n hp => h.reach_three hok hp
    exact hlast.findPte
  have hno : ∀ v, shown pt ph' v = none := by
    intro v
    rw [shown, PageTable.translateVpnToPte, hfind v]
    rfl
  refine ⟨⟨h.wf hok, fun v w hv => ?_, fun v u w w' hv => ?_⟩, hfind⟩
  · rw [hno] at hv
    cases hv
  · rw [hno] at hv
    cases hv

end QuackOS.Mm
