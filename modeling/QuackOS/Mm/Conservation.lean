import QuackOS.Mm.Leaves

/-!
# Frames over the life of an address space

A table is built, a thread changes it by its system calls, and the handle that owns it is
dropped.  The calls work on a borrowed view, and a borrowed view tracks no frame: the tables
they allocate are unknown to the owner.

* `Created.userTable` — a new table meets the invariant of the calls;
* `drop_given` — what dropping the owner frees: pages, the root and the four tracked frames;
* `frames_conserved_iff` — **every frame taken is given back exactly when no call of the
  thread maps a page**.
-/

namespace QuackOS.Mm

open Radix (reach stop IsTree)

/-! ## A new table -/

theorem kernelBlock_el0 (i : Index) : kernelBlock i &&& Pte.el0Bit = 0 := by
  decide +revert +kernel

namespace Created

variable {ph ph' : Phys} {pt : PageTable} {root l1 tr lo mid : ℕ} {rest : List ℕ}
  (h : Created ph pt ph' root l1 tr lo mid rest) (hok : ph.Ok)
include h hok

/-- There is no table of the last level yet. -/
theorem reach_three {p : List Index} {n : ℕ} (hp : p.length = 3) :
    reach Pte.child ph'.page root p ≠ some n := by
  intro hr
  rcases h.reach_eq_some hok hr with ⟨rfl, -⟩ | ⟨rfl, -⟩ | ⟨rfl, -⟩ | ⟨rfl, -⟩ <;> cases hp

theorem leaf_three {q : List Index} {w : Word} (hq : q.length = 4) :
    leaf ph' root q ≠ some (3, w) := by
  intro hl
  obtain ⟨p, n, i, -, hp, hr, -⟩ := (leaf_three_iff hq).mp hl
  exact h.reach_three hok hp hr

theorem not_isData {f : ℕ} : ¬ IsData ph' root f := by
  rintro ⟨q, w, hq, hl, -⟩
  exact h.leaf_three hok hq hl

/-- The blocks of a new table are not accessible at EL0. -/
theorem block_el0 {q : List Index} {l : ℕ} {w : Word} (hl : leaf ph' root q = some (l, w)) :
    w &&& Pte.el0Bit = 0 := by
  obtain ⟨hstop, hleaf⟩ := Option.filter_eq_some_iff.mp hl
  obtain ⟨p, i, r, n, -, hlp, hr, rfl, -⟩ := Radix.stop_eq_some hstop
  rw [Nat.zero_add] at hlp
  subst hlp
  rcases h.reach_eq_some hok hr with ⟨rfl, rfl⟩ | ⟨rfl, rfl⟩ | ⟨rfl, rfl⟩ | ⟨rfl, rfl⟩
  · -- there are no blocks on level 0
    cases hleaf
  · -- the words of the level-1 table are tables or zero
    rw [h.page_l1, Function.update_apply, Function.update_apply] at hleaf ⊢
    have hnt : ∀ f, f ∈ [root, n, tr, lo, mid] → isLeaf 1 (Pte.newTable f) = false := by
      intro f hf
      cases hb : isLeaf 1 (Pte.newTable f) with
      | false => rfl
      | true =>
        have := child_of_isLeaf hb (by decide)
        rw [Pte.child_newTable (h.lt hok hf)] at this
        cases this
    split at hleaf
    · rw [show isLeaf [(0 : Index)].length (Pte.newTable mid) = false from hnt mid (by simp)] at hleaf
      cases hleaf
    split at hleaf
    · rw [show isLeaf [(0 : Index)].length (Pte.newTable lo) = false from hnt lo (by simp)] at hleaf
      cases hleaf
    · cases hleaf
  · rw [h.page_lo, Function.update_apply, Function.update_apply]
    split
    · decide
    split
    · decide
    · rfl
  · rw [h.page_mid]
    exact kernelBlock_el0 i

/-- **A new table meets the invariant of the system calls**, with its tracker page kept. -/
theorem userTable : UserTable root [tr] ph' := by
  have hwf := h.wf hok
  rw [h.handle] at hwf
  refine ⟨⟨hwf.ok, hwf.tree, hwf.node_live, (fun _ ht => nomatch ht), fun _ ht => nomatch ht⟩,
    fun t ht => ?_, fun p n i hp hr => absurd hr (h.reach_three hok hp),
    fun f hf => absurd hf (h.not_isData hok),
    fun q q' w w' hq _ hw => absurd hw (h.leaf_three hok hq),
    fun q l w _ hl _ => h.block_el0 hok hl⟩
  rw [List.mem_singleton.mp ht]
  refine ⟨h.live hok (by simp), ?_, h.not_isData hok⟩
  rintro ⟨p, hp, hr⟩
  exact hwf.tracker_node tr rfl p hp hr

end Created

/-! ## Freeing the pages -/

section Free

variable {ph ph' : Phys} {root : ℕ} {kept : List ℕ}

/-- The loops find no block to free. -/
theorem UserTable.block_word (h : UserTable root kept ph) {p : List Index} {n : ℕ} {i : Index}
    (hl : p.length = 2) (hp : reach Pte.child ph.page root p = some n)
    (hv : ph.page n i &&& 1 ≠ 0) (hb : ph.page n i &&& 0b10 = 0) :
    ph.page n i &&& Pte.el0Bit = 0 := by
  have hc : Pte.child (ph.page n i) = none := by
    apply Pte.child_eq_none
    cases ht : Pte.isTable (ph.page n i) with
    | false => rfl
    | true => exact absurd hb (Pte.isTable_iff.mp ht).2
  have hstop : stop Pte.child ph.page 0 root (p ++ i :: 0 :: []) = some (2, ph.page n i) := by
    rw [stop_of_not_table hp hc, hl]
  have hleaf : isLeaf 2 (ph.page n i) = true := by
    simp only [isLeaf, Pte.and_three_of_block hv hb]
    rfl
  refine h.block (p ++ [i, 0]) 2 (ph.page n i) (by simp [hl]) ?_ (by omega)
  rw [leaf, hstop, Option.filter_some, if_pos hleaf]

/-- The pages that the loops visit are pages of the thread. -/
theorem UserTable.leaf_of_userLeaf (h : UserTable root kept ph) {q : List Index} {w : Word}
    (hq : UserLeaf ph.page root q w) : q.length = 4 ∧ Mm.leaf ph root q = some (3, w) := by
  obtain ⟨p, n, i, rfl, hl, hp, rfl, hv, -⟩ := hq
  obtain ⟨f, prot, -, hw, hleaf⟩ := h.word_valid hp hl (i := i) (by simpa [Pte.isValid] using hv)
  exact ⟨by simp [hl], by rw [hleaf, hw]⟩

/-- `free_user_data_pages` frees pages, and so leaves tables and kept frames alone. -/
theorem freeUserDataPages_spec (h : UserTable root kept ph)
    (hf : PageTable.freeUserDataPages root ph = some ph') :
    (∀ n, IsNode ph root n ∨ n ∈ kept → ph'.page n = ph.page n) ∧
      (∀ f ∈ ph'.given, f ∈ ph.given ∨ IsData ph root f) ∧ ph'.taken = ph.taken := by
  have hends := @forUserLeaves_ends Phys Phys.page root ph.page
    (fun _ s => (∀ n, IsNode ph root n ∨ n ∈ kept → s.page n = ph.page n) ∧
      (∀ f ∈ s.given, f ∈ ph.given ∨ IsData ph root f) ∧ s.taken = ph.taken)
    (fun _ => True) PageTable.freeLeaf PageTable.freeLeaf ph
    (fun _ s hI p n hp hr => hI.1 n (Or.inl ⟨p, hp, hr⟩))
    (fun p n i hl hp => h.block_word hl hp) ?_ ⟨fun _ _ => rfl, fun _ hf => Or.inl hf, rfl⟩
  · unfold PageTable.freeUserDataPages at hf
    split at hf
    case h_1 ph₁ hok =>
      cases hf
      exact hends.ok _ hok
    case h_2 => cases hf
  · rintro S s q w ⟨hpage, hgiven, htaken⟩ - hq
    obtain ⟨hq4, hleaf⟩ := h.leaf_of_userLeaf hq
    have hdata : IsData ph root (Pte.ppn w) := ⟨q, w, hq4, hleaf, rfl⟩
    refine ⟨fun s' hs' => ?_, fun _ _ => trivial⟩
    unfold PageTable.freeLeaf at hs'
    split at hs'
    case h_2 => cases hs'
    case h_1 s₁ hfr =>
      cases hs'
      obtain ⟨hp, hg, ht⟩ := freePage_effect hfr
      refine ⟨fun n hn => ?_, fun f hf => ?_, ht.trans htaken⟩
      · rw [hp n ?_, hpage n hn]
        rintro rfl
        rcases hn with hn | hn
        · exact (h.data_live _ hdata).2 hn
        · exact (h.kept_live _ hn).2.2 hdata
      · rw [hg] at hf
        rcases List.mem_cons.mp hf with rfl | hf
        · exact Or.inr hdata
        · exact hgiven f hf

/-- Freeing some frames one after the other. -/
theorem foldlM_freePage_logs {fs : List ℕ} (h : fs.foldlM freePage ph = some ph') :
    ph'.given = fs.reverse ++ ph.given ∧ ph'.taken = ph.taken := by
  induction fs generalizing ph with
  | nil =>
    cases h
    exact ⟨rfl, rfl⟩
  | cons f fs ih =>
    rw [List.foldlM_cons] at h
    obtain ⟨ph₁, h₁, h⟩ := Option.bind_eq_some_iff.mp h
    obtain ⟨-, hg, ht⟩ := freePage_effect h₁
    obtain ⟨hg', ht'⟩ := ih h
    refine ⟨?_, ht'.trans ht⟩
    rw [hg', hg]
    simp

theorem foldlM_freePage_of_live {fs : List ℕ} (hok : ph.Ok) (hnd : fs.Nodup)
    (hl : ∀ f ∈ fs, ph.Live f) : ∃ ph', fs.foldlM freePage ph = some ph' := by
  induction fs generalizing ph with
  | nil => exact ⟨ph, rfl⟩
  | cons f fs ih =>
    have hf := hl f (List.mem_cons_self ..)
    obtain ⟨hne, hnd⟩ := List.nodup_cons.mp hnd
    rw [List.foldlM_cons, freePage_of_live hok hf]
    refine ih (hok.push hf) hnd fun g hg => (hl g (List.mem_cons_of_mem f hg)).push ?_
    rintro rfl
    exact hne hg

end Free

/-! ## Dropping the owner -/

/-- The tracker page as `create_kernel_mapped_page_table` leaves it. -/
structure TracksThree (ph : Phys) (tr l1 lo mid : ℕ) : Prop where
  count : ph.page tr countIx = 3
  next : ph.page tr nextTagIx = 0
  frames : ph.page tr 0 = BitVec.ofNat 64 l1 ∧ ph.page tr 1 = BitVec.ofNat 64 lo ∧
    ph.page tr 2 = BitVec.ofNat 64 mid

section Drop

variable {ph ph' : Phys} {root l1 tr lo mid : ℕ}

theorem TracksThree.congr (h : TracksThree ph tr l1 lo mid) (hp : ph'.page tr = ph.page tr) :
    TracksThree ph' tr l1 lo mid := by
  refine ⟨?_, ?_, ?_⟩
  · rw [hp]
    exact h.count
  · rw [hp]
    exact h.next
  · rw [hp]
    exact h.frames

/-- The frames in the tracker page are freed in order, and then the page itself. -/
theorem freeTrackers_three {fuel : ℕ} (h : TracksThree ph tr l1 lo mid)
    (hlt : ∀ f ∈ [l1, lo, mid], f < 2 ^ 64) (hne : tr ∉ [l1, lo, mid]) :
    PageTable.freeTrackers (fuel + 1) (some tr) ph = [l1, lo, mid, tr].foldlM freePage ph := by
  simp only [List.mem_cons, List.not_mem_nil, or_false, not_or] at hne
  obtain ⟨hne1, hne2, hne3⟩ := hne
  have hnat : ∀ f ∈ [l1, lo, mid], (BitVec.ofNat 64 f).toNat = f := fun f hf => by
    rw [BitVec.toNat_ofNat, Nat.mod_eq_of_lt (hlt f hf)]
  have hcount : (ph.page tr countIx).toNat = 3 := by
    rw [h.count]
    rfl
  unfold PageTable.freeTrackers
  rw [hcount, show List.range 3 = [0, 1, 2] from rfl]
  simp only [List.foldlM_cons, List.foldlM_nil]
  rw [if_pos (by decide), show (Fin.ofNat 512 0 : Index) = 0 from rfl, h.frames.1,
    hnat l1 (by simp)]
  cases h1 : freePage ph l1 with
  | none => rfl
  | some ph₁ =>
  have e1 := h.congr ((freePage_effect h1).1 tr hne1)
  simp only [Option.bind_eq_bind, Option.bind_some]
  rw [if_pos (by decide), show (Fin.ofNat 512 1 : Index) = 1 from rfl, e1.frames.2.1,
    hnat lo (by simp)]
  cases h2 : freePage ph₁ lo with
  | none => rfl
  | some ph₂ =>
  have e2 := e1.congr ((freePage_effect h2).1 tr hne2)
  simp only [Option.bind_some]
  rw [if_pos (by decide), show (Fin.ofNat 512 2 : Index) = 2 from rfl, e2.frames.2.2,
    hnat mid (by simp)]
  cases h3 : freePage ph₂ mid with
  | none => rfl
  | some ph₃ =>
  have e3 := e2.congr ((freePage_effect h3).1 tr hne3)
  have hnext : trackerNext ph₃ tr = none := by
    rw [trackerNext, if_pos e3.next]
  simp only [Option.bind_some, Option.pure_def, hnext]
  cases h4 : freePage ph₃ tr with
  | none => rfl
  | some ph₄ =>
    cases fuel <;> rfl

/-- **What dropping the owner frees**: the user pages, the root, and the tracked frames with
their tracker page. -/
theorem drop_eq (h : UserTable root [tr] ph) (ht : TracksThree ph tr l1 lo mid)
    (hlt : ∀ f ∈ [l1, lo, mid], f < 2 ^ 64) (hne : tr ∉ [root, l1, lo, mid]) :
    (⟨root, some tr, true⟩ : PageTable).drop ph =
      (PageTable.freeUserDataPages root ph).bind fun ph =>
        [root, l1, lo, mid, tr].foldlM freePage ph := by
  obtain ⟨hr, hne⟩ := List.ne_and_not_mem_of_not_mem_cons hne
  simp only [PageTable.drop, if_true]
  cases hf : PageTable.freeUserDataPages root ph with
  | none => rfl
  | some ph₁ =>
  simp only [Option.bind_eq_bind, Option.bind_some, List.foldlM_cons]
  cases hfr : freePage ph₁ root with
  | none => rfl
  | some ph₂ =>
  have ht₁ := ht.congr ((freeUserDataPages_spec h hf).1 tr (Or.inr (by simp)))
  have ht₂ := ht₁.congr ((freePage_effect hfr).1 tr hr)
  simp only [Option.bind_some]
  rw [show 2 ^ 36 = (2 ^ 36 - 1) + 1 from rfl, freeTrackers_three ht₂ hlt hne]
  rfl

end Drop

/-! ## The life of an address space -/

section Life

variable {cpu : Cpu} {ph ph' : Phys} {root tr : ℕ} {kept : List ℕ} {ops : List UserOp}

/-- A call of `sys_map_page` with an address that passes its check. -/
def UserOp.acceptsMap : UserOp → Bool
  | .mapPage vaddr _ => !badAddr vaddr
  | _ => false

/-- The tree has no table of the last level. -/
def NoLastTable (ph : Phys) (root : ℕ) : Prop :=
  ∀ p n, p.length = 3 → reach Pte.child ph.page root p ≠ some n

theorem NoLastTable.findPte (h : NoLastTable ph root) (vpn : ℕ) :
    (view root).findPte ph vpn = none := by
  cases hf : (view root).findPte ph vpn with
  | none => rfl
  | some r =>
    obtain ⟨p, -, hl, hr⟩ := findPte_spec hf
    exact absurd hr (h p _ hl)

theorem NoLastTable.not_isData (h : NoLastTable ph root) {f : ℕ} : ¬ IsData ph root f := by
  rintro ⟨q, w, hq, hl, -⟩
  obtain ⟨p, n, i, -, hp, hr, -⟩ := (leaf_three_iff hq).mp hl
  exact h p n hp hr

/-- Without a table of the last level, a step that maps no page changes nothing. -/
theorem UserOp.run_of_noLastTable {op : UserOp} (h : UserTable root kept ph)
    (hno : NoLastTable ph root) (hcpu : currentPageTable cpu = view root)
    (hop : op.acceptsMap = true → ph.free = []) : op.run cpu ph = some ph := by
  cases op with
  | mapPage vaddr prot =>
    simp only [UserOp.run, sysMapPage, hcpu, isMapped, hno.findPte]
    cases hbad : badAddr vaddr with
    | true => rfl
    | false =>
      have hfree : ph.free = [] := hop (by simp [acceptsMap, hbad])
      have ha : allocPage ph = some (none, ph) := by simp [allocPage, hfree]
      simp [ha]
  | mprotect vaddr prot =>
    simp only [UserOp.run, sysMprotect, hcpu, hno.findPte]
    split <;> rfl
  | unmapPage vaddr =>
    simp only [UserOp.run, sysUnmapPage, hcpu, hno.findPte]
    split <;> rfl
  | store va w =>
    rcases userStore_cases h hcpu with heq | ⟨f, i, hdata, -⟩
    · exact congrArg some heq
    · exact absurd hdata hno.not_isData

/-- The frame is a table of the tree that was taken from the allocator and not given back. -/
structure Leaked (root tr : ℕ) (five : List ℕ) (words : Index → Word) (f : ℕ) (ph : Phys) :
    Prop where
  table : UserTable root [tr] ph
  tracker : ph.page tr = words
  node : IsNode ph root f
  not_owned : f ∉ five
  taken : f ∈ ph.taken
  not_given : f ∉ ph.given

variable {five : List ℕ} {words : Index → Word} {f : ℕ}

theorem Leaked.step {op : UserOp} (h : Leaked root tr five words f ph)
    (hcpu : currentPageTable cpu = view root) (hrun : op.run cpu ph = some ph') :
    Leaked root tr five words f ph' := by
  have hs := UserOp.step h.table hcpu hrun
  refine ⟨hs.table, ?_, hs.node_mono f h.node, h.not_owned, hs.taken.subset h.taken, fun hf => ?_⟩
  · rw [hs.kept_page tr (by simp)]
    exact h.tracker
  · rcases hs.given f hf with hf | hd
    · exact h.not_given hf
    · exact (h.table.data_live f hd).2 h.node

/-- The first page that is mapped goes to the head of the free list. -/
theorem map_of_run {vaddr prot d : ℕ} {rest : List ℕ} (h : UserTable root kept ph)
    (hno : NoLastTable ph root) (hcpu : currentPageTable cpu = view root)
    (hbad : badAddr vaddr = false) (hfree : ph.free = d :: rest)
    (hrun : (UserOp.mapPage vaddr prot).run cpu ph = some ph') :
    (view root).map (ph.pop d rest) (vaddr / 4096) d (protFlags prot) = some (view root, ph') := by
  obtain ⟨⟨r, ph₁⟩, hmap, rfl⟩ := Option.map_eq_some_iff.mp hrun
  rcases allocPage_cases h.wf.ok with ⟨hnil, -⟩ | ⟨d', rest', hcons, ha⟩
  · rw [hnil] at hfree
    cases hfree
  rw [hcons] at hfree
  obtain ⟨rfl, rfl⟩ := List.cons.inj hfree
  simp only [sysMapPage, hbad, hcpu, isMapped, hno.findPte, ha] at hmap
  obtain ⟨⟨pt', ph₂⟩, hm, heq⟩ := Option.map_eq_some_iff.mp hmap
  cases heq
  obtain ⟨ph₁, p, n, i, hg, -⟩ := map_spec (h.pop hcons).wf hm
  rw [hg.view rfl] at hm
  exact hm

/-- **The first page that is mapped needs a table that nobody tracks.** -/
theorem leaked_of_map {op : UserOp} (h : UserTable root [tr] ph) (hno : NoLastTable ph root)
    (hcpu : currentPageTable cpu = view root) (hgiven : ph.given = [])
    (hfive : ∀ g ∈ five, g ∉ ph.free) (hacc : op.acceptsMap = true) (hfree : ph.free ≠ [])
    (hrun : op.run cpu ph = some ph') : ∃ f, Leaked root tr five (ph.page tr) f ph' := by
  have hs := UserOp.step h hcpu hrun
  cases op with
  | mprotect => cases hacc
  | unmapPage => cases hacc
  | store => cases hacc
  | mapPage vaddr prot =>
  have hbad : badAddr vaddr = false := by simpa [UserOp.acceptsMap] using hacc
  obtain ⟨d, rest, hcons⟩ := List.exists_cons_of_ne_nil hfree
  have hm := map_of_run h hno hcpu hbad hcons hrun
  obtain ⟨ph₁, p, n, i, hg, -, hl, hp, rfl⟩ := map_spec (h.pop hcons).wf hm
  have h₁ : UserTable root [d, tr] ph₁ := (h.pop hcons).grown hg
  -- the table of the page was no table before
  have hnew : n ∈ rest := by
    rcases hg.node p n (by omega) hp with hr | hr
    · rw [Radix.reach_congr_nodes (pop_agrees h.wf hcons) (by omega)] at hr
      exact absurd hr (hno p n hl)
    · exact hr
  have hnfree : n ∈ ph.free := by
    rw [hcons]
    exact List.mem_cons_of_mem d hnew
  have hlive : ph₁.Live n := h₁.wf.node_live p n (by omega) hp
  refine ⟨n, hs.table, hs.kept_page tr (by simp), ⟨p, by omega, ?_⟩, fun hf => hfive n hf hnfree,
    ?_, ?_⟩
  · rw [h₁.reach_set hp hl (by omega)]
    exact hp
  · rcases hg.ext.moved n hnew with hf | hf
    · exact absurd hf hlive.2
    · exact hf
  · rw [Phys.set_given, hg.ext.given, Phys.pop_given, hgiven]
    exact List.not_mem_nil

/-- A run that maps no page changes nothing, and one that does leaks a table. -/
theorem runUser_cases (h : UserTable root [tr] ph) (hno : NoLastTable ph root)
    (hcpu : currentPageTable cpu = view root) (hgiven : ph.given = [])
    (hfive : ∀ g ∈ five, g ∉ ph.free) (hrun : runUser cpu ph ops = some ph') :
    ((ph.free = [] ∨ ∀ op ∈ ops, op.acceptsMap = false) ∧ ph' = ph) ∨
      ((ph.free ≠ [] ∧ ∃ op ∈ ops, op.acceptsMap = true) ∧
        ∃ f, Leaked root tr five (ph.page tr) f ph') := by
  induction ops with
  | nil =>
    cases hrun
    exact Or.inl ⟨Or.inr nofun, rfl⟩
  | cons op ops ih =>
    rw [runUser, List.foldlM_cons] at hrun
    obtain ⟨ph₁, hop, hrest⟩ := Option.bind_eq_some_iff.mp hrun
    by_cases hmap : op.acceptsMap = true ∧ ph.free ≠ []
    · obtain ⟨f, hleak⟩ := leaked_of_map h hno hcpu hgiven hfive hmap.1 hmap.2 hop
      refine Or.inr ⟨⟨hmap.2, op, List.mem_cons_self .., hmap.1⟩, f, ?_⟩
      exact Run.foldlM_invariant (fun _ _ _ _ hs hstep => hs.step hcpu hstep) hleak hrest
    · -- the state is the same before the next step
      have hop' : op.run cpu ph = some ph := by
        refine UserOp.run_of_noLastTable h hno hcpu fun hacc => ?_
        by_contra hfree
        exact hmap ⟨hacc, hfree⟩
      rw [hop'] at hop
      cases hop
      rcases ih hrest with ⟨hsafe, heq⟩ | ⟨⟨hfree, op', hop', hacc⟩, hleak⟩
      · refine Or.inl ⟨?_, heq⟩
        by_cases hfree : ph.free = []
        · exact Or.inl hfree
        refine Or.inr fun op' hop' => ?_
        rcases List.mem_cons.mp hop' with rfl | hop'
        · rw [← Bool.not_eq_true]
          exact fun hacc => hmap ⟨hacc, hfree⟩
        · exact (hsafe.resolve_left hfree) op' hop'
      · exact Or.inr ⟨⟨hfree, op', List.mem_cons_of_mem op hop', hacc⟩, hleak⟩

/-- The five frames of a new table, in the order of the allocator and in that of `drop`. -/
theorem five_perm (root l1 tr lo mid : ℕ) :
    [root, l1, tr, lo, mid].Perm [root, l1, lo, mid, tr] :=
  ((@List.perm_append_comm _ [tr] [lo, mid]).cons l1).cons root

/-- Dropping the owner does not free a table that leaked. -/
theorem Leaked.not_conserved {l1 lo mid : ℕ} (h : Leaked root tr [root, l1, tr, lo, mid] words f ph)
    (ht : TracksThree ph tr l1 lo mid) (hlt : ∀ g ∈ [l1, lo, mid], g < 2 ^ 64)
    (hne : tr ∉ [root, l1, lo, mid])
    (hd : (⟨root, some tr, true⟩ : PageTable).drop ph = some ph') : ¬ ph'.taken.Perm ph'.given := by
  intro hperm
  rw [drop_eq h.table ht hlt hne] at hd
  obtain ⟨ph₁, hfree, hd⟩ := Option.bind_eq_some_iff.mp hd
  obtain ⟨-, hgiven, htaken⟩ := freeUserDataPages_spec h.table hfree
  obtain ⟨hg, ht'⟩ := foldlM_freePage_logs hd
  have hf : f ∈ ph'.given := by
    apply hperm.subset
    rw [ht', htaken]
    exact h.taken
  rw [hg] at hf
  rcases List.mem_append.mp hf with hf | hf
  · apply h.not_owned
    rw [(five_perm root l1 tr lo mid).mem_iff]
    exact List.mem_reverse.mp hf
  · rcases hgiven f hf with hf | hdata
    · exact h.not_given hf
    · exact (h.table.data_live f hdata).2 h.node

/-- A table without user pages has nothing that `free_user_data_pages` could free. -/
theorem freeUserDataPages_of_noLastTable (h : UserTable root kept ph) (hno : NoLastTable ph root) :
    PageTable.freeUserDataPages root ph = some ph := by
  have hnone : ∀ {q w}, ¬ UserLeaf ph.page root q w := by
    rintro q w ⟨p, n, i, -, hl, hr, -⟩
    exact hno p n hl hr
  have hends := @forUserLeaves_ends Phys Phys.page root ph.page (fun _ s => s = ph)
    (fun _ => False) PageTable.freeLeaf PageTable.freeLeaf ph ?_
    (fun p n i hl hp => h.block_word hl hp) (fun _ _ _ _ _ _ hq => absurd hq hnone) rfl
  case refine_1 =>
    rintro - s rfl p n - -
    rfl
  unfold PageTable.freeUserDataPages
  split
  case h_1 s hs => rw [hends.ok s hs]
  case h_2 e he => exact (hends.error e he).elim

end Life

/-- The allocator with its logs started afresh. -/
def Phys.newLife (ph : Phys) : Phys := { ph with taken := [], given := [] }

theorem Phys.Ok.newLife {ph : Phys} (h : ph.Ok) : ph.newLife.Ok :=
  ⟨h.nodup, h.tracked, h.base_lt, h.clear⟩

theorem acceptsMap_iff {ops : List UserOp} : (∀ op ∈ ops, op.acceptsMap = false) ↔
    ∀ v prot, .mapPage v prot ∈ ops → v % 4096 ≠ 0 ∨ 2 ^ 47 ≤ v := by
  constructor
  · intro h v prot hv
    have := h _ hv
    simp only [UserOp.acceptsMap, badAddr, Bool.not_eq_eq_eq_not, Bool.not_false, Bool.or_eq_true,
      decide_eq_true_eq] at this
    exact this
  · intro h op hop
    cases op with
    | mapPage v prot =>
      have := h v prot hop
      simp only [UserOp.acceptsMap, badAddr, Bool.not_eq_eq_eq_not, Bool.not_false, Bool.or_eq_true,
        decide_eq_true_eq]
      exact this
    | mprotect => rfl
    | unmapPage => rfl
    | store => rfl

/-- Dropping the handle gives back every frame that was taken, once, and no other. -/
def Conserved (pt : PageTable) (ph : Phys) : Prop :=
  ∃ ph', pt.drop ph = some ph' ∧ ph'.taken.Perm ph'.given

section Whole

variable {ph₀ ph₁ ph₂ : Phys} {pt : PageTable} {cpu : Cpu} {ops : List UserOp} (hok : ph₀.Ok)
  (hc : createKernelMappedPageTable ph₀.newLife = some (.ok pt, ph₁))
  (hcpu : cpu.ttbr0 = pt.token) (hrun : runUser cpu ph₁ ops = some ph₂)
include hok hc hcpu hrun

theorem conserved_cases :
    ((ph₀.free.length = 5 ∨ ∀ op ∈ ops, op.acceptsMap = false) ∧ Conserved pt ph₂) ∨
      ((ph₀.free.length ≠ 5 ∧ ∃ op ∈ ops, op.acceptsMap = true) ∧ ¬ Conserved pt ph₂) := by
  obtain ⟨root, l1, tr, lo, mid, rest, hcr⟩ := create_spec hok.newLife hc
  have hok' : ph₀.newLife.Ok := hok.newLife
  have hlive : ∀ g ∈ [root, l1, tr, lo, mid], ph₁.Live g := fun g hg => hcr.live hok' hg
  have htable : UserTable root [tr] ph₁ := hcr.userTable hok'
  have hno : NoLastTable ph₁ root := fun p n hp => hcr.reach_three hok' hp
  have hview : currentPageTable cpu = view root := by
    rw [hcr.handle] at hcpu
    exact currentPageTable_token hcpu (Phys.Ok.ne_zero_of_tracked (hlive root (by simp)).1)
  have htracks : TracksThree ph₁ tr l1 lo mid := ⟨hcr.tr_count, hcr.tr_next, hcr.tr_frames⟩
  have hperm := five_perm root l1 tr lo mid
  have hlt : ∀ g ∈ [l1, lo, mid], g < 2 ^ 64 := by
    intro g hg
    have : g ∈ [root, l1, tr, lo, mid] := by
      rw [hperm.mem_iff]
      exact List.mem_cons_of_mem root (List.mem_append_left [tr] hg)
    exact (hcr.lt hok' this).trans_le (Nat.pow_le_pow_right (by omega) (by omega))
  have hnd : [root, l1, tr, lo, mid].Nodup := by
    have : ([root, l1, tr, lo, mid] ++ rest).Nodup := hcr.nodup hok'
    exact this.of_append_left
  have hne : tr ∉ [root, l1, lo, mid] := by
    simp only [List.nodup_cons, List.mem_cons, List.not_mem_nil, or_false, not_or] at hnd ⊢
    obtain ⟨⟨-, h1, -⟩, ⟨h2, -⟩, ⟨h3, h4⟩, -⟩ := hnd
    exact ⟨fun h => h1 h.symm, fun h => h2 h.symm, h3, h4⟩
  have hgiven : ph₁.given = [] := hcr.given
  have hfree : ph₁.free = [] ↔ ph₀.free.length = 5 := by
    have : ph₀.free = root :: l1 :: tr :: lo :: mid :: rest := hcr.taken_from
    rw [this, hcr.free]
    simp
  rw [ne_eq, ← hfree, hcr.handle]
  rcases runUser_cases htable hno hview hgiven (fun g hg => (hlive g hg).2) hrun with
    ⟨hsafe, rfl⟩ | ⟨hmap, f, hleak⟩
  · -- nothing was mapped: the five frames of the new table are freed
    refine Or.inl ⟨hsafe, ?_⟩
    obtain ⟨ph₃, hfold⟩ := foldlM_freePage_of_live hcr.ok (hperm.nodup_iff.mp hnd) fun g hg =>
      hlive g (hperm.mem_iff.mpr hg)
    obtain ⟨hg, ht⟩ := foldlM_freePage_logs hfold
    refine ⟨ph₃, ?_, ?_⟩
    · rw [drop_eq htable htracks hlt hne, freeUserDataPages_of_noLastTable htable hno]
      exact hfold
    · rw [hg, ht, hcr.taken, hgiven]
      show [mid, lo, tr, l1, root].Perm [tr, mid, lo, l1, root]
      exact (@List.perm_append_comm _ [mid, lo] [tr]).append_right [l1, root]
  · refine Or.inr ⟨hmap, ?_⟩
    rintro ⟨ph₃, hd, hcons⟩
    exact hleak.not_conserved (htracks.congr hleak.tracker) hlt hne hd hcons

/-- **Frames are conserved exactly when no page is mapped.**  A table is built, a thread
makes any calls on it, and its owner is dropped: every frame taken is given back, once, and
no other is, if and only if no call of `sys_map_page` passes its address check, or the
allocator had no frame left for one. -/
theorem frames_conserved_iff : Conserved pt ph₂ ↔
    (∀ v prot, .mapPage v prot ∈ ops → v % 4096 ≠ 0 ∨ 2 ^ 47 ≤ v) ∨ ph₀.free.length = 5 := by
  rw [← acceptsMap_iff, or_comm]
  rcases conserved_cases hok hc hcpu hrun with ⟨hsafe, hcons⟩ | ⟨⟨hroom, op, hop, hacc⟩, hcons⟩
  · exact iff_of_true hcons hsafe
  · refine iff_of_false hcons ?_
    rintro (hfive | hnone)
    · exact hroom hfive
    · rw [hnone op hop] at hacc
      cases hacc

end Whole

/-- A table on a machine with sixteen free frames, with its first frame as its root, and a
thread that makes some calls. -/
def createAndCall (ops : List UserOp) : Option (PageTable × Phys × Phys) :=
  match createKernelMappedPageTable sixteenFrames.newLife with
  | some (.ok pt, ph) => (runUser ⟨0x50000000, 0⟩ ph ops).map fun ph' => (pt, ph, ph')
  | _ => none

theorem createAndCall_spec {ops : List UserOp} (h : (createAndCall ops).isSome = true) :
    ∃ pt ph₁ ph₂, createKernelMappedPageTable sixteenFrames.newLife = some (.ok pt, ph₁) ∧
      (⟨0x50000000, 0⟩ : Cpu).ttbr0 = pt.token ∧ runUser ⟨0x50000000, 0⟩ ph₁ ops = some ph₂ := by
  obtain ⟨⟨pt, ph₁, ph₂⟩, h⟩ := Option.isSome_iff_exists.mp h
  unfold createAndCall at h
  split at h
  case h_2 => cases h
  case h_1 pt ph hc =>
  obtain ⟨ph', hrun, -⟩ := Option.map_eq_some_iff.mp h
  obtain ⟨root, l1, tr, lo, mid, rest, hcr⟩ := create_spec sixteenFrames_ok.newLife hc
  have hroot : pt.rootPpn = 0x50000 := by
    rw [hcr.handle]
    exact (List.cons.inj hcr.taken_from).1.symm
  refine ⟨pt, ph, ph', hc, ?_, hrun⟩
  rw [PageTable.token, hroot]

/-- A thread whose calls are all refused: the five frames of its table come back. -/
theorem frames_conserved_iff_refused :
    ∃ pt ph₁ ph₂, createKernelMappedPageTable sixteenFrames.newLife = some (.ok pt, ph₁) ∧
      runUser ⟨0x50000000, 0⟩ ph₁ [.mapPage 0x400001 3, .unmapPage 0x400000] = some ph₂ ∧
      Conserved pt ph₂ := by
  obtain ⟨pt, ph₁, ph₂, hc, hcpu, hrun⟩ :=
    @createAndCall_spec [.mapPage 0x400001 3, .unmapPage 0x400000] (by decide)
  refine ⟨pt, ph₁, ph₂, hc, hrun, ?_⟩
  refine (frames_conserved_iff sixteenFrames_ok hc hcpu hrun).mpr (Or.inl fun v prot hv => ?_)
  simp only [List.mem_cons, UserOp.mapPage.injEq, reduceCtorEq, List.not_mem_nil, or_false] at hv
  rw [hv.1]
  exact Or.inl (by decide)

/-- One page mapped, and its table is lost. -/
theorem mapped_page_leaks_table :
    ∃ pt ph₁ ph₂, createKernelMappedPageTable sixteenFrames.newLife = some (.ok pt, ph₁) ∧
      (⟨0x50000000, 0⟩ : Cpu).ttbr0 = pt.token ∧
      runUser ⟨0x50000000, 0⟩ ph₁ [.mapPage 0x400000 3] = some ph₂ ∧ ¬ Conserved pt ph₂ := by
  obtain ⟨pt, ph₁, ph₂, hc, hcpu, hrun⟩ := @createAndCall_spec [.mapPage 0x400000 3]
    (by decide)
  refine ⟨pt, ph₁, ph₂, hc, hcpu, hrun, ?_⟩
  rcases conserved_cases sixteenFrames_ok hc hcpu hrun with ⟨hsafe | hsafe, -⟩ | ⟨-, hcons⟩
  · cases hsafe
  · cases hsafe _ (List.mem_cons_self ..)
  · exact hcons

end QuackOS.Mm
