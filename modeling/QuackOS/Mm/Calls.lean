import QuackOS.Mm.Syscalls

/-!
# What a memory call does to the pages of a thread

`sys_map_page` and `sys_unmap_page` seen from the leaves of the table.

* `MapCall`, `sysMapPage_spec` — **a successful `sys_map_page` maps its page and takes no other
  page into the table**; where the page was not mapped before, it is a zero page and everything
  else is as it was;
* `UnmapCall`, `sysUnmapPage_spec` — `sys_unmap_page` maps nothing;
* `sysMapPage_progress` — with four free frames `sys_map_page` succeeds.
-/

namespace QuackOS.Mm

open Radix (reach stop IsTree)

/-- What a table has for a page. -/
def pageLeaf (ph : Phys) (root p : ℕ) : Option (ℕ × Word) := leaf ph root (indexes p)

/-- The page does not lie in a block. -/
def NoBlock (ph : Phys) (root p : ℕ) : Prop := ∀ l w, pageLeaf ph root p = some (l, w) → l = 3

theorem NoBlock.of_none {ph : Phys} {root p : ℕ} (h : pageLeaf ph root p = none) :
    NoBlock ph root p := by
  intro l w hw
  rw [h] at hw
  cases hw

theorem NoBlock.of_page {ph : Phys} {root p : ℕ} {w : Word} (h : pageLeaf ph root p = some (3, w)) :
    NoBlock ph root p := by
  intro l w' hw'
  rw [h] at hw'
  cases hw'
  rfl

/-- A page that a call leaves as it was or takes away: unmapped, it stays unmapped. -/
theorem pageLeaf_none_of_kept {ph ph' : Phys} {root p : ℕ}
    (h : pageLeaf ph' root p = pageLeaf ph root p ∨ pageLeaf ph' root p = none)
    (hnone : pageLeaf ph root p = none) : pageLeaf ph' root p = none := by
  rcases h with h | h
  · rw [h, hnone]
  · exact h

theorem NoBlock.of_kept {ph ph' : Phys} {root p : ℕ}
    (h : pageLeaf ph' root p = pageLeaf ph root p ∨ pageLeaf ph' root p = none)
    (hno : NoBlock ph root p) : NoBlock ph' root p := by
  rcases h with h | h
  · intro l w hw
    exact hno l w (h ▸ hw)
  · exact .of_none h

theorem indexes_ne {p v : ℕ} (hp : p < 2 ^ 36) (hv : v < 2 ^ 36) (h : p ≠ v) :
    indexes p ≠ indexes v := by
  intro heq
  have := indexes_inj heq
  omega

/-- A successful `sys_map_page`. -/
structure MapCall (root : ℕ) (kept : List ℕ) (ph ph' : Phys) (v : ℕ) : Prop where
  table : UserTable root kept ph'
  mapped : ∃ w, pageLeaf ph' root v = some (3, w)
  other : ∀ p, p < 2 ^ 36 → p ≠ v →
    pageLeaf ph' root p = pageLeaf ph root p ∨ pageLeaf ph' root p = none
  same_other : NoBlock ph root v → ∀ p, p < 2 ^ 36 → p ≠ v →
    pageLeaf ph' root p = pageLeaf ph root p
  fresh_page : pageLeaf ph root v = none → ∀ f, IsData ph root f → ph'.page f = ph.page f
  fresh_zero : pageLeaf ph root v = none → ∀ w, pageLeaf ph' root v = some (3, w) →
    ph'.page (Pte.ppn w) = fun _ => 0#64

/-- A `sys_unmap_page`, with the check of its address. -/
structure UnmapCall (root : ℕ) (kept : List ℕ) (ph ph' : Phys) (good : Bool) (v : ℕ) : Prop where
  table : UserTable root kept ph'
  mono : ∀ p, p < 2 ^ 36 → pageLeaf ph' root p = pageLeaf ph root p ∨ pageLeaf ph' root p = none
  gone : good = true → NoBlock ph root v → pageLeaf ph' root v = none

section Calls

variable {ph ph' : Phys} {root v prot f : ℕ} {kept : List ℕ}

theorem pageLeaf_pop {rest : List ℕ} (h : UserTable root kept ph) (hfree : ph.free = f :: rest)
    (p : ℕ) : pageLeaf (ph.pop f rest) root p = pageLeaf ph root p := by
  refine UserTable.leaf_agree (fun n hn => ?_) rfl
  exact Phys.pop_page_of_ne ((h.live_of_used (Or.inl hn)).ne_head hfree)

/-- A new frame mapped for a page: the frames in use stay as they are, and the new one is
zero. -/
theorem map_page_of_used {rest : List ℕ} {pt' : PageTable} {g : ℕ} (h : UserTable root kept ph)
    (hfree : ph.free = f :: rest)
    (hm : (view root).map (ph.pop f rest) v f (protFlags prot) = some (pt', ph'))
    (hg : g = f ∨ IsData ph root g) : ph'.page g = (ph.pop f rest).page g := by
  have h₀ : UserTable root (f :: kept) (ph.pop f rest) := h.pop hfree
  obtain ⟨ph₁, p, n, i, hgr, -, hl, hp, rfl⟩ := map_spec h₀.wf hm
  have h₁ : UserTable root (f :: kept) ph₁ := by
    have : pt' = view root := hgr.view rfl
    subst this
    exact h₀.grown hgr
  -- the frame is live and no table, before the walk and after it
  have hlive : (ph.pop f rest).Live g ∧ ¬ IsNode (ph.pop f rest) root g ∧ ¬ IsNode ph₁ root g := by
    have hagree : ∀ m, IsNode ph root m → (ph.pop f rest).page m = ph.page m := fun m hm =>
      Phys.pop_page_of_ne ((h.live_of_used (Or.inl hm)).ne_head hfree)
    rcases hg with rfl | hd
    · obtain ⟨hl, hn, -⟩ := h₀.kept_live g (List.mem_cons_self ..)
      exact ⟨hl, hn, (h₁.kept_live g (List.mem_cons_self ..)).2.1⟩
    · have hd₀ : IsData (ph.pop f rest) root g := (UserTable.isData_agree hagree).mpr hd
      obtain ⟨hl, hn⟩ := h₀.data_live g hd₀
      refine ⟨hl, hn, ?_⟩
      rintro ⟨q, hq, hr⟩
      rcases hgr.node q g hq hr with hr | hfr
      · exact hn ⟨q, hq, hr⟩
      · exact hl.2 hfr
  obtain ⟨hl₀, hn₀, hn₁⟩ := hlive
  have hne : g ≠ n := by
    rintro rfl
    exact hn₁ ⟨p, by omega, hp⟩
  rw [Phys.set_page_of_ne hne]
  exact hgr.page g hl₀ nofun fun q hq hr => hn₀ ⟨q, hq, hr⟩

theorem mapCall_of_map {rest : List ℕ} {pt' : PageTable} (h : UserTable root kept ph)
    (hv : v < 2 ^ 36) (hfree : ph.free = f :: rest)
    (hm : (view root).map (ph.pop f rest) v f (protFlags prot) = some (pt', ph')) :
    MapCall root kept ph ph' v := by
  have h₀ : UserTable root (f :: kept) (ph.pop f rest) := h.pop hfree
  have hf : f < 2 ^ 36 := h₀.wf.ok.lt_of_live (h₀.kept_live f (List.mem_cons_self ..)).1
  obtain ⟨-, -, hleaf⟩ := map_leaf h₀.wf hm
  have hself : pageLeaf ph' root v = some (3, Pte.new f (protFlags prot)) := by
    rw [pageLeaf, show leaf ph' root (indexes v) = _ from hleaf (indexes v) rfl, if_pos rfl]
  have hother : ∀ p, p < 2 ^ 36 → p ≠ v → pageLeaf ph' root p =
      if ∃ b, blockMet (ph.pop f rest) root (indexes v) = some b ∧ b <+: indexes p then none
      else pageLeaf ph root p := by
    intro p hp hne
    have := hleaf (indexes p) rfl
    rw [if_neg (indexes_ne hp hv hne)] at this
    rw [← pageLeaf_pop h hfree p]
    exact this
  have hdata := fun g => @map_page_of_used ph ph' root v prot f kept rest pt' g h hfree hm
  refine ⟨(map_step h hfree hm).table, ⟨_, hself⟩, fun p hp hne => ?_, fun hno p hp hne => ?_,
    fun _ g hg => ?_, fun _ w hw => ?_⟩
  · rw [hother p hp hne]
    split
    · exact Or.inr rfl
    · exact Or.inl rfl
  · rw [hother p hp hne, if_neg]
    rintro ⟨b, hb, -⟩
    obtain ⟨l, w, hlw, hl, -⟩ := @blockMet_eq_some (view root) _ _ b hb
    have hlw' : pageLeaf ph root v = some (l, w) := by
      rw [← pageLeaf_pop h hfree v]
      exact hlw
    have := hno l w hlw'
    omega
  · rw [hdata g (Or.inr hg)]
    exact Phys.pop_page_of_ne ((h.data_live g hg).1.ne_head hfree)
  · rw [hself] at hw
    cases hw
    rw [Pte.ppn_new hf, hdata f (Or.inl rfl), Phys.pop_page_self]

theorem mapCall_of_remap (h : UserTable root kept ph) (hv : v < 2 ^ 36)
    (hm : (view root).remap ph v (protFlags prot) = some ph') : MapCall root kept ph ph' v := by
  have hstep := remap_step h hm
  obtain ⟨-, w, hw, hleaf⟩ := remap_leaf h.wf hm
  obtain ⟨p, n, i, hp, hl, hr, hval, -⟩ := remap_spec hm
  obtain ⟨f₀, prot₀, -, -, hword⟩ := h.word_valid hr hl hval
  have hsome : pageLeaf ph root v ≠ none := by
    rw [pageLeaf, hp, hword]
    exact fun h => nomatch h
  have hother : ∀ p, p < 2 ^ 36 → p ≠ v → pageLeaf ph' root p = pageLeaf ph root p := by
    intro p hp hne
    have := hleaf (indexes p) rfl
    rw [if_neg (indexes_ne hp hv hne)] at this
    exact this
  refine ⟨hstep.table, ⟨Pte.new (Pte.ppn w) (protFlags prot), ?_⟩,
    fun p hp hne => Or.inl (hother p hp hne), fun _ => hother,
    fun hnone => absurd hnone hsome, fun hnone => absurd hnone hsome⟩
  rw [pageLeaf, show leaf ph' root (indexes v) = _ from hleaf (indexes v) rfl, if_pos rfl]

/-- The address of a call that passed the check. -/
theorem lt_of_badAddr {va : ℕ} (h : badAddr va = false) : va % 4096 = 0 ∧ va < 2 ^ 47 := by
  simp only [badAddr, Bool.or_eq_false_iff, decide_eq_false_iff_not, not_not, not_le] at h
  omega

theorem badAddr_eq_false {va : ℕ} (hal : va % 4096 = 0) (hlt : va < 2 ^ 47) :
    badAddr va = false := by
  simp only [badAddr, Bool.or_eq_false_iff, decide_eq_false_iff_not, not_not, not_le]
  omega

/-- **What `sys_map_page` does**: refused, it changes nothing. -/
theorem sysMapPage_spec {cpu : Cpu} {va : ℕ} {ret : ℤ} (h : UserTable root kept ph)
    (hcpu : currentPageTable cpu = view root) (hs : sysMapPage cpu ph va prot = some (ret, ph')) :
    (ret < 0 ∧ ph' = ph) ∨
      (ret = 0 ∧ badAddr va = false ∧ MapCall root kept ph ph' (va / 4096)) := by
  simp only [sysMapPage, hcpu] at hs
  split at hs
  case isTrue =>
    cases hs
    exact Or.inl ⟨by decide, rfl⟩
  case isFalse hbad =>
  have hgood : badAddr va = false := by simpa using hbad
  have hv : va / 4096 < 2 ^ 36 := by
    have := lt_of_badAddr hgood
    omega
  split at hs
  case isTrue =>
    obtain ⟨ph₂, hm, heq⟩ := Option.map_eq_some_iff.mp hs
    cases heq
    exact Or.inr ⟨rfl, hgood, mapCall_of_remap h hv hm⟩
  case isFalse =>
    rcases allocPage_cases h.wf.ok with ⟨-, ha⟩ | ⟨f, rest, hfree, ha⟩
    · simp only [ha] at hs
      cases hs
      exact Or.inl ⟨by decide, rfl⟩
    · simp only [ha] at hs
      obtain ⟨⟨pt', ph₂⟩, hm, heq⟩ := Option.map_eq_some_iff.mp hs
      cases heq
      exact Or.inr ⟨rfl, hgood, mapCall_of_map h hv hfree hm⟩

/-- The pages after one was taken out of the table and its frame freed. -/
theorem unmapped_leaf {vpn n : ℕ} {i : Index} {ph₁ : Phys} (h : UserTable root kept ph)
    (hf : (view root).findPte ph vpn = some (n, i)) (hm : (view root).unmap ph vpn = some ph₁)
    (hfr : freePage ph₁ (Pte.ppn (ph.page n i)) = some ph') (p : ℕ) :
    pageLeaf ph' root p = if indexes p = indexes vpn then none else pageLeaf ph root p := by
  obtain ⟨-, w, -, hleaf⟩ := unmap_leaf h.wf hm
  have hfreed : pageLeaf ph' root p = pageLeaf ph₁ root p := by
    obtain ⟨-, f, -, -, -, -, hunused, rfl, rfl⟩ := unmap_freed h hf hm hfr
    exact UserTable.leaf_agree (fun m hm => push_page_of_node hunused hm) rfl
  rw [hfreed, pageLeaf, show leaf ph₁ root (indexes p) = _ from hleaf (indexes p) rfl]
  rfl

/-- **What `sys_unmap_page` does.** -/
theorem sysUnmapPage_spec {cpu : Cpu} {va : ℕ} {ret : ℤ} (h : UserTable root kept ph)
    (hcpu : currentPageTable cpu = view root) (hs : sysUnmapPage cpu ph va = some (ret, ph')) :
    UnmapCall root kept ph ph' (!badAddr va) (va / 4096) := by
  have htable : UserTable root kept ph' := by
    have hrun : (UserOp.unmapPage va).run cpu ph = some ph' := by simp [UserOp.run, hs]
    exact (UserOp.step h hcpu hrun).table
  simp only [sysUnmapPage, hcpu] at hs
  split at hs
  case isTrue hbad =>
    cases hs
    exact ⟨htable, fun _ _ => Or.inl rfl, fun hgood => by simp [hbad] at hgood⟩
  case isFalse hbad =>
  split at hs
  case h_1 n i hf =>
    obtain ⟨ph₁, hm, hfr⟩ := Option.bind_eq_some_iff.mp hs
    obtain ⟨ph₂, hfr, heq⟩ := Option.map_eq_some_iff.mp hfr
    cases heq
    have hleaf := unmapped_leaf h hf hm hfr
    refine ⟨htable, fun p hp => ?_, fun _ _ => ?_⟩
    · rw [hleaf p]
      split
      · exact Or.inr rfl
      · exact Or.inl rfl
    · rw [hleaf, if_pos rfl]
  case h_2 hf =>
    cases hs
    refine ⟨htable, fun _ _ => Or.inl rfl, fun _ hno => ?_⟩
    -- a mapped page outside every block is found
    cases hw : pageLeaf ph root (va / 4096) with
    | none => rfl
    | some r =>
      obtain ⟨l, w⟩ := r
      obtain rfl := hno l w hw
      obtain ⟨p, n, i, hix, hl, hr, -, -⟩ := (leaf_three_iff rfl).mp hw
      rw [PageTable.findPte, hix, show (view root).rootPpn = root from rfl, find_of_reach hr] at hf
      cases hf

/-- **`sys_unmap_page` changes no other page**: neither what the table has for it nor what it
holds. -/
theorem sysUnmapPage_other {cpu : Cpu} {va p : ℕ} {ret : ℤ} (h : UserTable root kept ph)
    (hcpu : currentPageTable cpu = view root) (hs : sysUnmapPage cpu ph va = some (ret, ph'))
    (hp : p < 2 ^ 36) (hne : p ≠ va / 4096) :
    pageLeaf ph' root p = pageLeaf ph root p ∧
      ∀ w, pageLeaf ph root p = some (3, w) → ph'.page (Pte.ppn w) = ph.page (Pte.ppn w) := by
  simp only [sysUnmapPage, hcpu] at hs
  split at hs
  case isTrue =>
    cases hs
    exact ⟨rfl, fun _ _ => rfl⟩
  case isFalse hbad =>
  split at hs
  case h_2 =>
    cases hs
    exact ⟨rfl, fun _ _ => rfl⟩
  case h_1 n i hf =>
  obtain ⟨ph₁, hm, hfr⟩ := Option.bind_eq_some_iff.mp hs
  obtain ⟨ph₂, hfr, heq⟩ := Option.map_eq_some_iff.mp hfr
  cases heq
  have hv : va / 4096 < 2 ^ 36 := by
    have := @lt_of_badAddr va (by simpa using hbad)
    omega
  have hleaf : pageLeaf ph' root p = pageLeaf ph root p := by
    rw [unmapped_leaf h hf hm hfr p, if_neg (indexes_ne hp hv hne)]
  refine ⟨hleaf, fun w hw => ?_⟩
  obtain ⟨q, f, hq, hr, -, -, hunused, rfl, rfl⟩ := unmap_freed h hf hm hfr
  -- the page's frame is no table, and it is still in use, so it is not the one that was freed
  have hdata : IsData ph root (Pte.ppn w) := ⟨_, w, rfl, hw, rfl⟩
  have hnode : Pte.ppn w ≠ n := by
    intro heq
    exact (h.data_live _ hdata).2 (heq ▸ ⟨q, by omega, hr⟩)
  have hfree : Pte.ppn w ≠ f := by
    intro heq
    have hkept : leaf (ph.set n i 0) root (indexes p) = some (3, w) := by
      rw [← hw, ← hleaf]
      exact (UserTable.leaf_agree (fun m hm => push_page_of_node hunused hm) rfl).symm
    exact hunused (Or.inr (Or.inr (heq ▸ ⟨_, w, rfl, hkept, rfl⟩)))
  rw [Phys.push_page_of_ne hfree, Phys.set_page_of_ne hnode]

/-! ## When `sys_map_page` succeeds -/

/-- A page that is mapped is mapped again without a new frame. -/
theorem sysMapPage_of_isMapped {cpu : Cpu} {va : ℕ} (hcpu : currentPageTable cpu = view root)
    (hgood : badAddr va = false) (hm : isMapped (view root) ph (va / 4096) = true) :
    ∃ ph', sysMapPage cpu ph va prot = some (0, ph') ∧ ph'.free = ph.free := by
  obtain ⟨⟨n, i⟩, hf, hv⟩ := (Option.any_eq_true _ _).mp hm
  refine ⟨ph.set n i (Pte.new (Pte.ppn (ph.page n i)) (protFlags prot)), ?_, rfl⟩
  simp only [sysMapPage, hcpu, hgood, hm, if_true, PageTable.remap, hf, hv, Bool.false_eq_true,
    if_false, Option.map_some]

theorem isMapped_of_pageLeaf {w : Word} (hw : pageLeaf ph root v = some (3, w)) :
    isMapped (view root) ph v = true := by
  obtain ⟨p, n, i, hix, -, hr, hword, hleaf⟩ := (leaf_three_iff rfl).mp hw
  rw [isMapped, PageTable.findPte, hix, show (view root).rootPpn = root from rfl, find_of_reach hr,
    Option.any_some, hword]
  apply Pte.isValid_of_isTable
  simpa [isLeaf, Pte.isTable, Pte.descTable] using hleaf

theorem nextTable_progress {pt : PageTable} {n : ℕ} {i : Index} (hv : pt.ownsRoot = false)
    (hok : ph.Ok) (hfree : 0 < ph.free.length) :
    ∃ m ph', pt.nextTable ph n i = some (some m, pt, ph') ∧ ph'.Ok ∧
      ph.free.length ≤ ph'.free.length + 1 := by
  unfold PageTable.nextTable
  dsimp only
  split
  case isFalse => exact ⟨_, ph, rfl, hok, by omega⟩
  case isTrue =>
    rcases allocPage_cases hok with ⟨hnil, -⟩ | ⟨f, rest, hcons, ha⟩
    · rw [hnil] at hfree
      exact absurd hfree (by simp)
    · rw [ha]
      dsimp only
      rw [trackFrame_of_view hv]
      refine ⟨_, _, rfl, (hok.pop hcons).set, ?_⟩
      simp [hcons]

/-- The walk through a borrowed table needs a frame for each level at most. -/
theorem descend_progress {pt : PageTable} {r : List Index} {n : ℕ} (hv : pt.ownsRoot = false)
    (hne : r ≠ []) (hok : ph.Ok) (hfree : r.length ≤ ph.free.length + 1) :
    ∃ l ph', PageTable.descend r n pt ph = some (some l, pt, ph') ∧
      ph.free.length + 1 ≤ ph'.free.length + r.length := by
  induction r generalizing n ph with
  | nil => exact absurd rfl hne
  | cons i r ih =>
    cases r with
    | nil => exact ⟨(n, i), ph, rfl, le_rfl⟩
    | cons j r =>
      simp only [List.length_cons] at hfree ih ⊢
      obtain ⟨m, ph₁, hn, hok₁, hlen₁⟩ := @nextTable_progress ph pt n i hv hok (by omega)
      obtain ⟨l, ph', hd, hlen⟩ := @ih ph₁ m (by simp) hok₁ (by omega)
      refine ⟨l, ph', ?_, by omega⟩
      rw [PageTable.descend, hn]
      exact hd

/-- **With four frames to spare a page can be mapped.** -/
theorem sysMapPage_progress {cpu : Cpu} {va : ℕ} (h : UserTable root kept ph)
    (hcpu : currentPageTable cpu = view root) (hgood : badAddr va = false)
    (hfree : 4 ≤ ph.free.length) :
    ∃ ph', sysMapPage cpu ph va prot = some (0, ph') ∧ ph.free.length ≤ ph'.free.length + 4 := by
  cases hm : isMapped (view root) ph (va / 4096) with
  | true =>
    obtain ⟨ph', hs, hsame⟩ := @sysMapPage_of_isMapped ph root prot cpu va hcpu hgood hm
    exact ⟨ph', hs, by rw [hsame]; omega⟩
  | false =>
    rcases allocPage_cases h.wf.ok with ⟨hnil, -⟩ | ⟨f, rest, hcons, ha⟩
    · rw [hnil] at hfree
      exact absurd hfree (by simp)
    · have hlen : ph.free.length = rest.length + 1 := by rw [hcons, List.length_cons]
      obtain ⟨⟨n, i⟩, ph₁, hd, hlen₁⟩ := @descend_progress (ph.pop f rest) (view root)
        (indexes (va / 4096)) root rfl (by simp [indexes]) (h.wf.ok.pop hcons)
        (by rw [length_indexes, Phys.pop_free]; omega)
      rw [length_indexes, Phys.pop_free] at hlen₁
      refine ⟨ph₁.set n i (Pte.new f (protFlags prot)), ?_, ?_⟩
      · have hc : (view root).findPteCreate (ph.pop f rest) (va / 4096) =
            some (some (n, i), view root, ph₁) := hd
        simp only [sysMapPage, hcpu, hgood, hm, ha, PageTable.map, hc, Bool.false_eq_true,
          if_false, Option.map_some]
      · rw [Phys.set_free]
        omega

end Calls

end QuackOS.Mm
