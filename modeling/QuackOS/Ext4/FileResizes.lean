import QuackOS.Ext4.FileWrites

/-!
# What a truncation makes of the contents

`truncate` sets the size.  A longer file has zeros behind its old end; a shorter one has lost what
was behind the new end, from the cache and from the tree, so that it does not come back when the
file grows again.

* `ResizeSafe` — the truncations that do this: a shrink to the start of a page and of an extent,
  a shrink of an inline file that is not in the cache, growth of an inline file that is empty or
  has its page in the cache;
* `grow_holds`, `shrink_holds`, `truncate_holds` — `truncate` is then `Contents.resize`.
-/

namespace QuackOS.Ext4

open Buffer Ext4ExtentBlock
open Ext4FileSystem (Released)

namespace Ext4Inode

variable {R : Set ℕ} {ino ino' : Ext4Inode} {fs fs' : Ext4FileSystem} {n : ℕ}
  {l : List (BitVec 8)}

/-- The pages that stay in the cache. -/
theorem getElem?_removePages (ino : Ext4Inode) (first last i : ℕ) :
    (ino.removePages first last).pages[i]? =
      if first ≤ i ∧ i < last then none else ino.pages[i]? := by
  have hfold : ∀ (is : List ℕ) (ps : Std.TreeMap ℕ Page),
      (is.foldl (fun ps i => ps.erase i) ps)[i]? = if i ∈ is then none else ps[i]? := by
    intro is
    induction is with
    | nil => intro ps; rfl
    | cons k is ih =>
      intro ps
      rw [List.foldl_cons, ih, Std.TreeMap.getElem?_erase]
      by_cases hki : k = i
      · subst hki
        simp
      · have : ¬ compare k i = .eq := by simpa using hki
        simp [this, Ne.symm hki]
  rw [removePages, hfold]
  simp only [List.mem_range'_1]
  have hiff : (first ≤ i ∧ i < first + (last - first)) ↔ first ≤ i ∧ i < last := by omega
  by_cases h : first ≤ i ∧ i < last
  · rw [if_pos h, if_pos (hiff.mpr h)]
  · rw [if_neg h, if_neg (mt hiff.mp h)]

/-- A byte is one of the page it is on. -/
theorem Holds.of_pages {m : ℕ} (hsane : ino'.Sane fs') (hm : ino'.getSize = m)
    (hl : ino.Holds fs l)
    (hfront : ∀ i < 2 ^ 32, ∀ j < pageSize, i * pageSize + j < m →
      ino'.pageAt fs' i j = ino.pageAt fs i j)
    (hzero : ino'.ZeroFrom fs' m) : ino'.Holds fs' (Contents.resize 0 m l) := by
  have hlt := hsane.size
  rw [hm] at hlt
  have hsmall : ∀ k < 2 ^ 32, k / pageSize < 2 ^ 32 := fun k hk =>
    lt_of_le_of_lt (Nat.div_le_self _ _) hk
  refine ⟨hsane, hm.symm ▸ hzero, ?_⟩
  rw [← hl.contents, fileBytes, fileBytes, hm]
  refine Contents.resize_tabulate (fun k hk hsize => ?_) (fun k hk => ?_)
  · exact hl.zero.byteAt (hsmall k (by omega)) hsize
  · exact hfront _ (hsmall k (by omega)) _ (Nat.mod_lt _ (by decide))
      (by rwa [Nat.div_add_mod'])

/-! ## Growing -/

/-- An inline file may grow when it is empty, or has its page in the cache and dirty: the bytes in
`i_block` make room for the root of a tree. -/
def GrowsWhole (ino : Ext4Inode) : Prop :=
  ino.inodeOnDisk.hasInlineData = true →
    ino.getSize = 0 ∨ (ino.pages[0]?.any fun p => p.dirty) = true

instance (ino : Ext4Inode) : Decidable ino.GrowsWhole := inferInstanceAs (Decidable (_ → _))

/-- The pages of a tree that maps nothing. -/
theorem diskPage_empty {d : Ext4InodeDisk} (hinline : d.hasInlineData = false)
    (hdepth : (extentHeader d.block).depth = 0) (hext : extents d.block = []) (i : ℕ) :
    d.diskPage fs i = fun _ => 0 := by
  refine Ext4InodeDisk.diskPage_of_none hinline ?_
  rw [Ext4InodeDisk.lookupExtent_root hdepth, hext]
  rfl

/-- The inline file after its record was made one with an empty tree. -/
theorem initRoot_holds (hl : ino.Holds fs l) (hgrow : ino.GrowsWhole)
    (hinline : ino.inodeOnDisk.hasInlineData = true) :
    ({ ino with inodeOnDisk := { ino.inodeOnDisk with
      inlineDataFl := false, extentsFl := true
      block := Ext4ExtentHeader.newRoot.write ino.inodeOnDisk.block } } : Ext4Inode).Holds fs l := by
  set d : Ext4InodeDisk := { ino.inodeOnDisk with
    inlineDataFl := false, extentsFl := true
    block := Ext4ExtentHeader.newRoot.write ino.inodeOnDisk.block } with hd
  have hheader : extentHeader d.block = Ext4ExtentHeader.newRoot := extentHeader_write ..
  have hdepth : (extentHeader d.block).depth = 0 := by rw [hheader]; rfl
  have hext : extents d.block = [] := by
    rw [← List.length_eq_zero_iff, length_extents, hheader]
    rfl
  have hdisk : ∀ i, d.diskPage fs i = fun _ => 0 := diskPage_empty rfl hdepth hext
  -- outside of page 0 an inline file has nothing
  have hrest : ∀ i < 2 ^ 32, ∀ j < pageSize,
      (ino.pages[i]? = none ∨ ∃ p, ino.pages[i]? = some p ∧ p.dirty = false) →
      ino.pageAt fs i j = 0 := by
    intro i hi j hj hclean
    have hpage : ino.pageAt fs i j = ino.inodeOnDisk.diskPage fs i j := by
      rcases hclean with hnone | ⟨p, hp, hc⟩
      · rw [pageAt, hnone]
      · rw [pageAt, hp]
        exact hl.sane.clean i hi p hp hc j hj
    by_cases hi0 : i = 0
    · subst hi0
      rcases hgrow hinline with hempty | hdirty
      · exact (hl.zero 0 hi j hj (by omega)).1
      · obtain ⟨p, hp, hpd⟩ := (Option.any_eq_true _ _).mp hdirty
        rcases hclean with hnone | ⟨q, hq, hc⟩
        · rw [hnone] at hp
          cases hp
        · rw [hq] at hp
          cases hp
          rw [hc] at hpd
          cases hpd
    · rw [hpage, Ext4InodeDisk.diskPage, if_pos hinline, if_neg hi0]
  have hat : ∀ i < 2 ^ 32, ∀ j < pageSize,
      ({ ino with inodeOnDisk := d } : Ext4Inode).pageAt fs i j = ino.pageAt fs i j := by
    intro i hi j hj
    cases hp : ino.pages[i]? with
    | none =>
      rw [hrest i hi j hj (Or.inl hp)]
      show (Ext4Inode.pageAt ⟨_, d, ino.pages, _⟩ fs i) j = 0
      rw [pageAt, hp]
      exact congrFun (hdisk i) j
    | some q =>
      show (Ext4Inode.pageAt ⟨_, d, ino.pages, _⟩ fs i) j = _
      rw [pageAt, hp, pageAt, hp]
  refine ⟨⟨hl.sane.seals, hl.sane.size, rfl, fun _ => .of_leaf hdepth ?_ ?_, ?_⟩, ?_, ?_⟩
  · rw [hext]
    exact ⟨List.Pairwise.nil, by simp, by simp⟩
  · rw [hheader]
    rfl
  · intro i hi p hp hc j hj
    have hzero := hrest i hi j hj (Or.inr ⟨p, hp, hc⟩)
    rw [pageAt, show ino.pages[i]? = some p from hp] at hzero
    exact hzero.trans (congrFun (hdisk i) j).symm
  · intro i hi j hj hn
    exact ⟨(hat i hi j hj).trans (hl.zero i hi j hj hn).1, congrFun (hdisk i) j⟩
  · rw [← hl.contents]
    refine List.map_congr_left fun k hk => ?_
    rw [List.mem_range] at hk
    exact hat _ (lt_of_le_of_lt (Nat.div_le_self _ _) (hk.trans hl.sane.size)) _
      (Nat.mod_lt _ (by decide))

/-- A size that grows reaches over zeros. -/
theorem setSize_holds (hl : ino.Holds fs l) (hn : ino.getSize ≤ n) (hlt : n < 2 ^ 32) :
    (ino.setSize n).Holds fs (Contents.resize 0 n l) :=
  Holds.of_pages (hl.sane.setSize hlt) rfl hl (fun _ _ _ _ _ => rfl)
    fun i hi j hj hnj => hl.zero i hi j hj (hn.trans hnj)

/-! ## Shrinking -/

/-- An inline file that is not in the cache is cut in its record. -/
theorem shrink_inline_holds (ho : Owns R fs ino.inodeOnDisk) (hl : ino.Holds fs l)
    (hinline : ino.inodeOnDisk.hasInlineData = true) (hn : n < ino.getSize)
    (hcache : ino.pages[0]? = none) (h : ino.shrinkSize fs n = some (ino', fs')) :
    ino'.Holds fs' (Contents.resize 0 n l) := by
  have hle : ino.getSize ≤ 60 := ho.ordered.inlineSize hinline
  unfold shrinkSize at h
  rw [if_pos hinline] at h
  cases h
  set d : Ext4InodeDisk := { ino.inodeOnDisk with
    block := fun i => if n ≤ i ∧ i < ino.inodeOnDisk.size then 0 else ino.inodeOnDisk.block i
    size := n } with hd
  have hflag : d.hasInlineData = true := hinline
  have hdisk : ∀ i j, d.diskPage fs i j =
      if i = 0 ∧ n ≤ j ∧ j < ino.getSize then 0 else ino.inodeOnDisk.diskPage fs i j := by
    intro i j
    by_cases hi : i = 0
    · rw [Ext4InodeDisk.diskPage, if_pos hflag, if_pos hi, Ext4InodeDisk.diskPage, if_pos hinline,
        if_pos hi]
      simp only [newInlinePageCache, hi, true_and]
      show (if j < 60 then (if n ≤ j ∧ j < ino.getSize then 0 else ino.inodeOnDisk.block j) else 0) =
        _
      split_ifs <;> rfl
    · rw [if_neg (fun h => hi h.1), Ext4InodeDisk.diskPage, if_pos hflag, if_neg hi,
        Ext4InodeDisk.diskPage, if_pos hinline, if_neg hi]
  have hat : ∀ i j, ({ ino with inodeOnDisk := d } : Ext4Inode).pageAt fs i j =
      if i = 0 ∧ n ≤ j ∧ j < ino.getSize then 0 else ino.pageAt fs i j := by
    intro i j
    show (Ext4Inode.pageAt ⟨_, d, ino.pages, _⟩ fs i) j = _
    by_cases hi : i = 0
    · subst hi
      rw [pageAt, hcache, pageAt, hcache]
      exact hdisk 0 j
    · rw [if_neg (fun h => hi h.1)]
      cases hp : ino.pages[i]? with
      | none =>
        rw [pageAt, hp, pageAt, hp]
        exact (hdisk i j).trans (if_neg fun h => hi h.1)
      | some q => rw [pageAt, hp, pageAt, hp]
  refine Holds.of_pages ⟨hl.sane.seals, ?_, hl.sane.flags, ?_, ?_⟩ rfl hl ?_ ?_
  · show n < 2 ^ 32
    omega
  · intro h0
    rw [show d.hasInlineData = false from h0] at hflag
    cases hflag
  · intro i hi p hp hc j hj
    have hne : i ≠ 0 := by
      rintro rfl
      rw [show ino.pages[0]? = some p from hp] at hcache
      cases hcache
    show p.data j = d.diskPage fs i j
    rw [hdisk, if_neg (fun h => hne h.1)]
    exact hl.sane.clean i hi p hp hc j hj
  · intro i hi j hj hk
    rw [hat, if_neg]
    rintro ⟨rfl, hnj, -⟩
    omega
  · intro i hi j hj hk
    have hcut : ¬ (i = 0 ∧ n ≤ j ∧ j < ino.getSize) → ino.getSize ≤ i * pageSize + j := by
      intro hnot
      by_cases hi0 : i = 0
      · subst hi0
        omega
      · unfold pageSize
        omega
    show Ext4Inode.pageAt _ fs i j = 0 ∧ d.diskPage fs i j = 0
    rw [hat, hdisk]
    by_cases hcase : i = 0 ∧ n ≤ j ∧ j < ino.getSize
    · rw [if_pos hcase, if_pos hcase]
      exact ⟨rfl, rfl⟩
    · rw [if_neg hcase, if_neg hcase]
      exact hl.zero i hi j hj (hcut hcase)

/-- The tree after a clean cut, on a file system where blocks were freed. -/
theorem truncateExtents_contents {d : Ext4InodeDisk} (ho : Owns R fs d)
    (hinline : d.hasInlineData = false) (ht : d.TreeOk fs) {m size : ℕ} (hcut : d.CutsClean fs m)
    (hsize : fs'.blockSize = fs.blockSize) (hblock : ∀ x ∉ fs.bitmaps, fs'.block x = fs.block x) :
    ({ d with size := size, block := truncateExtents d.block m } : Ext4InodeDisk).TreeOk fs' ∧
      ∀ i < 2 ^ 32, ({ d with size := size, block := truncateExtents d.block m } :
          Ext4InodeDisk).diskPage fs' i = if i < m then d.diskPage fs i else fun _ => 0 := by
  set d' : Ext4InodeDisk := { d with size := size, block := truncateExtents d.block m } with hd'
  have hinline' : d'.hasInlineData = false := hinline
  have hdepth' : (extentHeader d'.block).depth = (extentHeader d.block).depth :=
    depth_truncateExtents ..
  have hmapped : ∀ x ∈ d.owned fs, fs'.block x = fs.block x := fun x hx =>
    hblock x (ho.not_bitmap hx)
  -- the tree, the cut, and lookups that do not depend on what was freed
  suffices h : d'.TreeOk fs' ∧ (∀ l : UInt32, m ≤ l.toNat → d'.lookupExtent fs' l = none) ∧
      ∀ l : UInt32, l.toNat < m → d'.physicalAt fs' l = d.physicalAt fs l by
    obtain ⟨htree, hgone, hkept⟩ := h
    refine ⟨htree, fun i hi => ?_⟩
    have hli : (UInt32.ofNat i).toNat = i := UInt32.toNat_ofNat_of_lt' hi
    by_cases him : i < m
    · rw [if_pos him]
      have hphys := hkept (UInt32.ofNat i) (by rw [hli]; exact him)
      cases hx : d.physicalAt fs (UInt32.ofNat i) with
      | none =>
        rw [Ext4InodeDisk.diskPage_of_none hinline (Ext4InodeDisk.physicalAt_eq_none.mp hx),
          Ext4InodeDisk.diskPage_of_none hinline'
            (Ext4InodeDisk.physicalAt_eq_none.mp (hphys.trans hx))]
      | some x =>
        rw [Ext4InodeDisk.diskPage_of_physicalAt hinline hx,
          Ext4InodeDisk.diskPage_of_physicalAt hinline' (hphys.trans hx)]
        exact hmapped x
          (Ext4InodeDisk.mem_owned_of_mapped (Ext4InodeDisk.physicalAt_mapped hinline hx))
    · rw [if_neg him]
      exact Ext4InodeDisk.diskPage_of_none hinline' (hgone _ (by rw [hli]; omega))
  by_cases hdepth : (extentHeader d.block).depth = 0
  · obtain ⟨hord, hmax⟩ := ht.leaf hdepth
    have hwf : d.WellFormed fs := by
      rw [Ext4InodeDisk.WellFormed, Ext4InodeDisk.iterAllExtents, maxDepth_eq,
        iterAllExtents_leaf hdepth]
      exact hord
    obtain ⟨⟨hgone, hkept⟩, -⟩ := (Ext4InodeDisk.truncateExtents_iff hwf m).mpr hcut
    have hleaf : ∀ (fs : Ext4FileSystem) (l : UInt32), d'.lookupExtent fs l =
        (extents d'.block).find? fun e => e.covers l :=
      fun _ _ => Ext4InodeDisk.lookupExtent_root (hdepth'.trans hdepth)
    have hsame : ∀ l, d'.lookupExtent fs' l = d'.lookupExtent fs l := fun l => by
      rw [hleaf, hleaf]
    refine ⟨.of_leaf (hdepth'.trans hdepth) ?_ ((max_truncateExtents d.block m).trans hmax),
      fun l hl => (hsame l).trans (hgone l hl), fun l hl => ?_⟩
    · obtain ⟨k, -, htake, -⟩ := extents_truncateExtents hdepth m
      show Ext4Extent.Ordered (extents (truncateExtents d.block m))
      rw [htake]
      exact ⟨hord.inOrder.sublist (List.take_sublist _ _),
        fun e he => hord.nonempty e (List.mem_of_mem_take he),
        fun e he => hord.stop_lt e (List.mem_of_mem_take he)⟩
    · rw [← hkept l hl, Ext4InodeDisk.physicalAt, hsame]
      rfl
  · obtain ⟨h0, -⟩ | ⟨hnone, -⟩ := hcut
    · exact absurd h0 hdepth
    have hroot : truncateExtents d.block m = d.block := by
      have hpos : 0 < (extentHeader d.block).depth := UInt16.pos_iff_ne_zero.mpr hdepth
      rw [truncateExtents, if_pos hpos]
    have hsame : ∀ l, d'.lookupExtent fs' l = d.lookupExtent fs l := fun l => by
      have hcongr := (Ext4InodeDisk.tree_congr hsize
        fun x hx => hmapped x (Owns.mem_nodes hx)).2.2 hinline l
      rw [← hcongr, hd']
      simp only [Ext4InodeDisk.lookupExtent, hroot]
    refine ⟨⟨fun h0 => absurd (hdepth'.symm.trans h0) hdepth, fun {l k e} hl hk => ?_⟩,
      fun l hl => (hsame l).trans (hnone l hl), fun l _ => ?_⟩
    · rw [hsame] at hl ⊢
      exact ht.steady hl hk
    · rw [Ext4InodeDisk.physicalAt, hsame, Ext4InodeDisk.physicalAt]

theorem blockCount_eq {size : ℕ} (h : size < 2 ^ 32) :
    blockCount size pageSize = (size + 4095) / 4096 := by
  unfold blockCount usize pageSize
  omega

/-- The page a shrink to the start of a page fetches is one it then drops. -/
theorem clearLastPage_spec (ho : Owns R fs ino.inodeOnDisk) (hs : ino.Sane fs)
    (hn : n < ino.getSize) (halign : n % pageSize = 0)
    (h : ino.clearLastPage fs n = some (ino', fs')) :
    ∃ ino₀, ino.Intact fs ino₀ fs' ∧ ino'.inodeOnDisk = ino₀.inodeOnDisk ∧
      ino'.seals = ino₀.seals ∧
      ∀ i, ¬ (blockCount n pageSize ≤ i ∧ i < blockCount ino.getSize pageSize) →
        ino'.pages[i]? = ino₀.pages[i]? := by
  have hlt := hs.size
  unfold clearLastPage at h
  split at h
  · cases h
    exact ⟨ino, .refl hs, rfl, rfl, fun _ _ => rfl⟩
  · rename_i hpart
    split at h
    · cases h
    · rename_i p ino₀ fs₁ hget
      cases h
      refine ⟨ino₀, (getPageCache_intact ho hs hget).1, rfl, rfl, fun i hi => ?_⟩
      rw [getElem?_insertPage, if_neg]
      rintro rfl
      refine hi ?_
      rw [blockCount_eq hlt, blockCount_eq (hn.trans hlt)]
      unfold pageSize at *
      omega
    · rename_i ino₀ fs₁ hget
      cases h
      exact ⟨_, (getPageCache_intact ho hs hget).1, rfl, rfl, fun _ _ => rfl⟩

/-- A shrink of a file with a tree that stays whole: to the start of a page, and to the start of an
extent or behind everything that is mapped. -/
def CutsWhole (fs : Ext4FileSystem) (ino : Ext4Inode) (n : ℕ) : Prop :=
  n % pageSize = 0 ∧ ∀ ino₁ fs₁, ino.clearLastPage fs n = some (ino₁, fs₁) →
    ino₁.inodeOnDisk.CutsClean fs₁ (blockCount n pageSize)

/-- A file with a tree is cut in the cache and in the tree. -/
theorem shrink_tree_holds (ho : Owns R fs ino.inodeOnDisk) (hl : ino.Holds fs l)
    (hinline : ino.inodeOnDisk.hasInlineData = false) (hn : n < ino.getSize)
    (hsafe : TruncateSafe fs ino n) (hcut : CutsWhole fs ino n)
    (h : ino.shrinkSize fs n = some (ino', fs')) :
    ino'.Holds fs' (Contents.resize 0 n l) ∧
      ino'.inodeOnDisk.linksCount = ino.inodeOnDisk.linksCount := by
  obtain ⟨halign, hcut⟩ := hcut
  have hlt := hl.sane.size
  unfold shrinkSize at h
  rw [if_neg (by rw [hinline]; decide)] at h
  simp only [Option.bind_eq_bind, Option.bind_eq_some_iff, Option.pure_def, Option.some.injEq,
    Prod.mk.injEq, Prod.exists] at h
  obtain ⟨ino₁, fs₁, hclear, fs₂, hloop, rfl, rfl⟩ := h
  obtain ⟨ino₀, hintact, hdisk₁, hseals₁, hpages₁⟩ :=
    clearLastPage_spec ho hl.sane hn halign hclear
  obtain ⟨hstep, hin, -⟩ := ho.clearLastPage hclear
  have hinline₁ : ino₁.inodeOnDisk.hasInlineData = false := hin.trans hinline
  have hbs := ho.sound.blockSize
  have hcut₁ := hcut ino₁ fs₁ hclear
  have hsafe₁ := hsafe hn hinline ino₁ fs₁ hclear
  -- freed blocks keep their bytes
  obtain ⟨hsound₂, hblock₂⟩ : fs₂.Sound ∧ ∀ x ∉ fs₁.bitmaps, fs₂.block x = fs₁.block x := by
    by_cases hdepth : (extentHeader ino₁.inodeOnDisk.block).depth = 0
    · have hrel := hstep.owns.shrinkLoop hinline₁ hsafe₁
        (Released.refl hstep.owns.sound _) (UInt32.le_refl _) hloop
      exact ⟨hrel.sound, hrel.block⟩
    · have hfs : fs₂ = fs₁ := by
        refine shrinkLoop_of_none (fun l hl hlt => ?_) (UInt32.le_refl _) hloop
        rw [Option.eq_none_iff_forall_not_mem]
        intro e he
        exact hdepth (hsafe₁ l e hl hlt he).1
      rw [hfs]
      exact ⟨hstep.owns.sound, fun _ _ => rfl⟩
  have hsane₀ := hintact.sane
  have ht₁ : ino₁.inodeOnDisk.TreeOk fs₁ := by
    rw [hdisk₁]
    exact hsane₀.tree (hdisk₁ ▸ hinline₁)
  have hsize₂ : fs₂.blockSize = fs₁.blockSize :=
    hsound₂.blockSize.trans hstep.owns.sound.blockSize.symm
  obtain ⟨htree, hdisk⟩ :=
    @truncateExtents_contents _ _ _ _ hstep.owns hinline₁ ht₁ _ n hcut₁ hsize₂ hblock₂
  have hbn : blockCount n pageSize = n / 4096 := by
    rw [blockCount_eq (hn.trans hlt)]
    unfold pageSize at halign
    omega
  rw [hbn] at hdisk htree hpages₁
  have hbs₁ : fs.blockSize = pageSize := hbs
  rw [hbs₁, hbn]
  set d : Ext4InodeDisk := { ino₁.inodeOnDisk with
    size := n, block := truncateExtents ino₁.inodeOnDisk.block (n / 4096) } with hd
  have hz₀ := hintact.zeroFrom hl.zero
  have hdiskEq : ∀ i, ino₁.inodeOnDisk.diskPage fs₁ i = ino₀.inodeOnDisk.diskPage fs₁ i :=
    fun i => by rw [hdisk₁]
  -- what is left in the cache
  have hpages : ∀ i, (ino₁.removePages (n / 4096) (blockCount ino.getSize pageSize)).pages[i]? =
      if n / 4096 ≤ i ∧ i < blockCount ino.getSize pageSize then none else ino₀.pages[i]? := by
    intro i
    rw [getElem?_removePages]
    by_cases hi : n / 4096 ≤ i ∧ i < blockCount ino.getSize pageSize
    · rw [if_pos hi, if_pos hi]
    · rw [if_neg hi, if_neg hi, hpages₁ i hi]
  have hbeyond : ∀ i, n / 4096 ≤ i → ¬ (n / 4096 ≤ i ∧ i < blockCount ino.getSize pageSize) →
      ino.getSize ≤ i * pageSize := by
    intro i hi hnot
    rw [blockCount_eq hlt] at hnot
    unfold pageSize
    omega
  refine ⟨?_, ?_⟩
  swap
  · show ino₁.inodeOnDisk.linksCount = _
    rw [hdisk₁, hintact.links]
  refine Holds.of_pages ⟨?_, ?_, ?_, ?_, ?_⟩ rfl hl ?_ ?_
  · show ino₁.seals &&& 2 = 0 ∧ ino₁.seals &&& 4 = 0
    rw [hseals₁]
    exact hsane₀.seals
  · exact hn.trans hlt
  · show ino₁.inodeOnDisk.extentsFl = !ino₁.inodeOnDisk.inlineDataFl
    rw [hdisk₁]
    exact hsane₀.flags
  · exact fun _ => htree
  · intro i hi p hp hc j hj
    have hp : (ino₁.removePages (n / 4096) (blockCount ino.getSize pageSize)).pages[i]? =
      some p := hp
    rw [hpages] at hp
    split at hp
    · cases hp
    · rename_i hnot
      show p.data j = d.diskPage fs₂ i j
      rw [hsane₀.clean i hi p hp hc j hj, hdisk i hi]
      split
      · rw [hdiskEq]
      · exact (hz₀ i hi j hj ((hbeyond i (by omega) hnot).trans (Nat.le_add_right _ _))).2
  · intro i hi j hj hk
    have hin : i < n / 4096 := by
      unfold pageSize at hk halign
      omega
    show Ext4Inode.pageAt ⟨_, d, (ino₁.removePages (n / 4096) _).pages, _⟩ fs₂ i j = _
    rw [← hintact.page i, pageAt]
    dsimp only
    rw [hpages, if_neg (by omega), pageAt]
    cases ino₀.pages[i]? with
    | none =>
      show d.diskPage fs₂ i j = ino₀.inodeOnDisk.diskPage fs₁ i j
      rw [hdisk i hi, if_pos hin, hdiskEq]
    | some q => rfl
  · intro i hi j hj hk
    have hge : n / 4096 ≤ i := by
      unfold pageSize at hk hj
      omega
    have hd0 : d.diskPage fs₂ i j = 0 := by
      rw [hdisk i hi, if_neg (by omega)]
    refine ⟨?_, hd0⟩
    show Ext4Inode.pageAt ⟨_, d, (ino₁.removePages (n / 4096) _).pages, _⟩ fs₂ i j = 0
    rw [pageAt]
    dsimp only
    rw [hpages]
    by_cases hnot : n / 4096 ≤ i ∧ i < blockCount ino.getSize pageSize
    · rw [if_pos hnot]
      exact hd0
    · rw [if_neg hnot]
      have hz := hz₀ i hi j hj ((hbeyond i hge hnot).trans (Nat.le_add_right _ _))
      cases hp : ino₀.pages[i]? with
      | none => exact hd0
      | some q =>
        rw [pageAt, hp] at hz
        exact hz.1

/-! ## Truncation -/

/-- The truncations that set the size of the contents and do nothing else to them. -/
structure ResizeSafe (fs : Ext4FileSystem) (ino : Ext4Inode) (n : ℕ) : Prop where
  size : n < 2 ^ 32
  grow : ino.getSize < n → ino.GrowsWhole
  inline : n < ino.getSize → ino.inodeOnDisk.hasInlineData = true → ino.pages[0]? = none
  blocks : TruncateSafe fs ino n
  cut : n < ino.getSize → ino.inodeOnDisk.hasInlineData = false → CutsWhole fs ino n

/-- **`truncate` sets the size of the contents.** -/
theorem truncate_holds (ho : Owns R fs ino.inodeOnDisk) (hl : ino.Holds fs l)
    (hsafe : ResizeSafe fs ino n) {r : Except Errno ℕ}
    (h : ino.truncate fs n = some (r, ino', fs')) :
    r = .ok 0 ∧ ino'.Holds fs' (Contents.resize 0 n l) ∧
      ino'.inodeOnDisk.linksCount = ino.inodeOnDisk.linksCount := by
  unfold truncate at h
  split at h
  · rename_i heq
    cases h
    refine ⟨rfl, ?_, rfl⟩
    rw [Contents.resize, List.take_of_length_le (by rw [hl.length]; omega), hl.length, heq,
      Nat.sub_self, List.replicate_zero, List.append_nil]
    exact hl
  split at h
  · rename_i hne hlt
    rw [if_neg (by simp [hl.sane.seals.1])] at h
    obtain ⟨⟨ino₁, fs₁⟩, hshrink, heq⟩ := Option.map_eq_some_iff.mp h
    cases heq
    refine ⟨rfl, ?_⟩
    by_cases hinline : ino.inodeOnDisk.hasInlineData = true
    · refine ⟨shrink_inline_holds ho hl hinline hlt (hsafe.inline hlt hinline) hshrink, ?_⟩
      unfold shrinkSize at hshrink
      rw [if_pos hinline] at hshrink
      cases hshrink
      rfl
    · have hinline : ino.inodeOnDisk.hasInlineData = false := by simpa using hinline
      exact shrink_tree_holds ho hl hinline hlt hsafe.blocks (hsafe.cut hlt hinline) hshrink
  · rename_i hne hge
    rw [if_neg (by simp [hl.sane.seals.2])] at h
    cases h
    refine ⟨rfl, ?_⟩
    by_cases hinline : ino.inodeOnDisk.hasInlineData = true
    · rw [if_pos hinline]
      exact ⟨setSize_holds (initRoot_holds hl (hsafe.grow (by omega)) hinline)
        (by show ino.getSize ≤ n; omega) hsafe.size, rfl⟩
    · rw [if_neg hinline]
      exact ⟨setSize_holds hl (by omega) hsafe.size, rfl⟩

end Ext4Inode

end QuackOS.Ext4
