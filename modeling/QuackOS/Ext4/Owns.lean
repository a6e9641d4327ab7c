import QuackOS.Ext4.Inode

/-!
# What an inode owns

The blocks of a file are those its extents map and those the nodes of its extent tree are
kept in.  `Owns R fs d` says that an inode owns its blocks alone: they are pairwise distinct,
marked used, and outside the set `R` of blocks in use for anything else, which stays used.
Every operation on the inode keeps this for an arbitrary `R`, and `Keeps R` the contents of
the blocks of `R`; so what one file does never reaches another.

* `Owns.fresh`, `Owns.insertExtent`, `Owns.lookupOrCreateExtent` — growing;
* `Owns.getPageCache`, `Owns.write` — writing;
* `Owns.fallocate`, `Owns.truncate` — under the conditions that keep a freed block from
  staying mapped;
* `Owns.drop` — write-back, and the release of a file without links.
-/

namespace QuackOS.Ext4

open Buffer Ext4ExtentBlock
open Ext4FileSystem (Fresh Released)

/-! ## Blocks of extents -/

namespace Ext4Extent

variable {e : Ext4Extent} {l : UInt32}

/-- A covered block lies within the extent; in particular the end does not wrap around. -/
theorem covers_bounds (h : e.covers l = true) :
    e.logicalBlock.toNat ≤ l.toNat ∧ l.toNat < e.logicalBlock.toNat + e.len.toNat := by
  simp only [covers, Bool.and_eq_true, decide_eq_true_eq, UInt32.le_iff_toNat_le,
    UInt32.lt_iff_toNat_lt, UInt32.toNat_add, UInt16.toNat_toUInt32] at h
  have := l.toNat_lt
  omega

/-- The block a page is read from is one of the extent's. -/
theorem fsBlockIdOf_mem (h : e.covers l = true) : fsBlockIdOf e l ∈ e.blocks := by
  have := covers_bounds h
  rw [blocks, List.mem_range'_1, fsBlockIdOf]
  omega

theorem blocks_new {p : ℕ} (n : ℕ) (hp : p < 2 ^ 48) (hn : n ≤ 32768) :
    (new l (UInt32.ofNat n).toUInt16 p).blocks = List.range' p n := by
  rw [blocks, physicalStartBlock_new _ _ hp]
  congr 1
  simp only [new, UInt32.toNat_toUInt16, UInt32.toNat_ofNat']
  omega

/-- A run that extends an extent follows its last block. -/
theorem blocks_grow {p n : ℕ} (hm : e.mergesWith l p = true) (hn : n ≤ 32768)
    (hp : p < 2 ^ 32) (he : e.physicalStartBlock + e.len.toNat < 2 ^ 32) :
    ({ e with len := e.len + (UInt32.ofNat n).toUInt16 } : Ext4Extent).blocks =
      e.blocks ++ List.range' p n := by
  simp only [mergesWith, Bool.and_eq_true, decide_eq_true_eq, beq_iff_eq] at hm
  obtain ⟨⟨-, hphys⟩, hlen⟩ := hm
  have hlen' : e.len.toNat < 32768 := by simpa [UInt16.lt_iff_toNat_lt] using hlen
  have hstart : p = e.physicalStartBlock + e.len.toNat := by
    have := congrArg UInt32.toNat hphys
    simp only [UInt32.toNat_ofNat', UInt32.toNat_add, UInt16.toNat_toUInt32] at this
    omega
  have hsum : (e.len + (UInt32.ofNat n).toUInt16).toNat = e.len.toNat + n := by
    simp only [UInt16.toNat_add, UInt32.toNat_toUInt16, UInt32.toNat_ofNat']
    omega
  simp only [blocks, physicalStartBlock, hsum] at hstart ⊢
  rw [hstart, List.range'_append_1]

end Ext4Extent

/-! ## Owned blocks -/

namespace Ext4InodeDisk

/-- The extents that map blocks of the file. -/
def liveExtents (d : Ext4InodeDisk) (fs : Ext4FileSystem) : List Ext4Extent :=
  if d.hasInlineData then [] else d.iterAllExtents fs

/-- The blocks the extents map. -/
def mapped (d : Ext4InodeDisk) (fs : Ext4FileSystem) : List ℕ :=
  (d.liveExtents fs).flatMap Ext4Extent.blocks

/-- The blocks the extent tree is kept in. -/
def nodes (d : Ext4InodeDisk) (fs : Ext4FileSystem) : List ℕ :=
  if d.hasInlineData then []
  else nodeBlocks fs.device fs.blockSize maxDepth d.block

/-- The blocks of the file. -/
def owned (d : Ext4InodeDisk) (fs : Ext4FileSystem) : List ℕ := d.mapped fs ++ d.nodes fs

/-- An extent tree depends on the blocks of its nodes only. -/
theorem tree_congr {d : Ext4InodeDisk} {fs fs' : Ext4FileSystem}
    (hsize : fs'.blockSize = fs.blockSize)
    (h : ∀ x ∈ d.nodes fs, fs'.block x = fs.block x) :
    d.liveExtents fs' = d.liveExtents fs ∧ d.nodes fs' = d.nodes fs ∧
      (d.hasInlineData = false → ∀ l, d.lookupExtent fs' l = d.lookupExtent fs l) := by
  unfold liveExtents nodes at *
  by_cases hinline : d.hasInlineData = true
  · simp [hinline]
  · simp only [hinline, Bool.false_eq_true, if_false] at h ⊢
    unfold iterAllExtents lookupExtent
    unfold Ext4FileSystem.block at h
    rw [hsize] at h ⊢
    obtain ⟨h1, h2, h3⟩ := Ext4ExtentBlock.tree_congr h
    exact ⟨h1, h2, fun _ => h3⟩

theorem owned_congr {d : Ext4InodeDisk} {fs fs' : Ext4FileSystem}
    (hsize : fs'.blockSize = fs.blockSize) (h : ∀ x ∈ d.nodes fs, fs'.block x = fs.block x) :
    d.owned fs' = d.owned fs := by
  obtain ⟨h1, h2, -⟩ := tree_congr hsize h
  rw [owned, mapped, h1, h2, owned, mapped]

section Leaf

variable {d : Ext4InodeDisk} {fs : Ext4FileSystem} (hinline : d.hasInlineData = false)
  (hdepth : (extentHeader d.block).depth = 0)
include hinline hdepth

theorem liveExtents_leaf : d.liveExtents fs = extents d.block := by
  rw [liveExtents, hinline]
  exact iterAllExtents_leaf hdepth

theorem nodes_leaf : d.nodes fs = [] := by
  rw [nodes, hinline]
  exact nodeBlocks_leaf hdepth

theorem owned_leaf : d.owned fs = (extents d.block).flatMap Ext4Extent.blocks := by
  rw [owned, mapped, liveExtents_leaf hinline hdepth, nodes_leaf hinline hdepth, List.append_nil]

end Leaf

/-- What a lookup finds maps blocks of the file. -/
theorem lookupExtent_live {d : Ext4InodeDisk} {fs : Ext4FileSystem} {l : UInt32} {e : Ext4Extent}
    (hinline : d.hasInlineData = false) (h : d.lookupExtent fs l = some e) :
    e ∈ d.liveExtents fs ∧ e.covers l = true := by
  obtain ⟨hmem, hcov⟩ := lookupExtent_mem h
  refine ⟨?_, hcov⟩
  rw [liveExtents, hinline]
  exact hmem

theorem mem_mapped {d : Ext4InodeDisk} {fs : Ext4FileSystem} {e : Ext4Extent} {x : ℕ}
    (he : e ∈ d.liveExtents fs) (hx : x ∈ e.blocks) : x ∈ d.mapped fs :=
  List.mem_flatMap.mpr ⟨e, he, hx⟩

theorem mem_owned_of_mapped {d : Ext4InodeDisk} {fs : Ext4FileSystem} {x : ℕ}
    (hx : x ∈ d.mapped fs) : x ∈ d.owned fs := List.mem_append_left _ hx

/-- A root that is a leaf has room for its extents in the 60 bytes of `i_block`. -/
def RootFits (b : Buffer) : Prop :=
  (extentHeader b).depth = 0 →
    (extentHeader b).entries.toNat ≤ (extentHeader b).max.toNat ∧ (extentHeader b).max.toNat ≤ 4

/-- An inode whose record is in order: inline data, of at most 60 bytes, or an extent tree but
not both, a root that fits, and no empty extent. -/
structure Ordered (d : Ext4InodeDisk) (fs : Ext4FileSystem) : Prop where
  flags : d.extentsFl = true → d.inlineDataFl = false
  inlineSize : d.hasInlineData = true → d.size ≤ 60
  root : d.hasInlineData = false → RootFits d.block
  len : ∀ e ∈ d.liveExtents fs, e.len ≠ 0

end Ext4InodeDisk

/-- **Ownership.**  The inode's blocks are its own, apart from the blocks `R` in use
elsewhere. -/
structure Owns (R : Set ℕ) (fs : Ext4FileSystem) (d : Ext4InodeDisk) : Prop where
  sound : fs.Sound
  bitmaps : ∀ x ∈ fs.bitmaps, x ∈ R
  rest : ∀ x ∈ R, fs.used x = true
  ordered : d.Ordered fs
  nodup : (d.owned fs).Nodup
  apart : ∀ x ∈ d.owned fs, x ∉ R
  used : ∀ x ∈ d.owned fs, fs.used x = true

/-- The blocks of `R` have the contents they had, the bitmaps aside. -/
structure Keeps (R : Set ℕ) (fs fs' : Ext4FileSystem) : Prop where
  bitmaps : fs'.bitmaps = fs.bitmaps
  block : ∀ x ∈ R, x ∉ fs.bitmaps → fs'.block x = fs.block x

variable {R : Set ℕ} {fs fs' fs'' : Ext4FileSystem} {d d' : Ext4InodeDisk}

theorem Keeps.refl (R : Set ℕ) (fs : Ext4FileSystem) : Keeps R fs fs := ⟨rfl, fun _ _ _ => rfl⟩

theorem Keeps.trans (h : Keeps R fs fs') (h' : Keeps R fs' fs'') : Keeps R fs fs'' where
  bitmaps := h'.bitmaps.trans h.bitmaps
  block := fun x hx hb => by rw [h'.block x hx (h.bitmaps ▸ hb), h.block x hx hb]

/-! ## Allocation leaves the inode alone -/

namespace Owns

theorem mem_nodes {x : ℕ} (hx : x ∈ d.nodes fs) : x ∈ d.owned fs := List.mem_append_right _ hx

theorem not_bitmap (h : Owns R fs d) {x : ℕ} (hx : x ∈ d.owned fs) : x ∉ fs.bitmaps :=
  fun hb => h.apart x hx (h.bitmaps x hb)

/-- A change of the file system that leaves the nodes of the tree and marks no block of the
file or of `R` free. -/
theorem of_congr (h : Owns R fs d) (hs : fs'.Sound) (hbitmaps : fs'.bitmaps = fs.bitmaps)
    (hblock : ∀ x ∈ d.nodes fs, fs'.block x = fs.block x)
    (hrest : ∀ x ∈ R, fs'.used x = true) (hused : ∀ x ∈ d.owned fs, fs'.used x = true) :
    Owns R fs' d := by
  have hsize : fs'.blockSize = fs.blockSize := hs.blockSize.trans h.sound.blockSize.symm
  have howned := Ext4InodeDisk.owned_congr hsize hblock
  refine ⟨hs, hbitmaps ▸ h.bitmaps, hrest, ⟨h.ordered.flags, h.ordered.inlineSize, h.ordered.root, ?_⟩,
    ?_, ?_, ?_⟩
  · rw [(Ext4InodeDisk.tree_congr hsize hblock).1]
    exact h.ordered.len
  · rw [howned]
    exact h.nodup
  · rw [howned]
    exact h.apart
  · rw [howned]
    exact hused

/-- Taking free blocks changes neither the file nor the rest. -/
theorem fresh (h : Owns R fs d) {xs : List ℕ} (hf : Fresh fs fs' xs) :
    Owns R fs' d ∧ Keeps R fs fs' ∧ d.owned fs' = d.owned fs ∧
      d.liveExtents fs' = d.liveExtents fs := by
  have hblock : ∀ x ∈ d.nodes fs, fs'.block x = fs.block x := fun x hx =>
    hf.block x (h.not_bitmap (mem_nodes hx)) (hf.not_mem_of_used (h.used x (mem_nodes hx)))
  have hsize : fs'.blockSize = fs.blockSize := hf.sound.blockSize.trans h.sound.blockSize.symm
  refine ⟨h.of_congr hf.sound hf.bitmaps hblock (fun x hx => hf.used_mono x (h.rest x hx))
    (fun x hx => hf.used_mono x (h.used x hx)), ⟨hf.bitmaps, fun x hx hb => ?_⟩,
    Ext4InodeDisk.owned_congr hsize hblock, (Ext4InodeDisk.tree_congr hsize hblock).1⟩
  exact hf.block x hb (hf.not_mem_of_used (h.rest x hx))

/-- Writing into a block that is neither a node of the file nor part of the rest. -/
theorem writeBytes (h : Owns R fs d) {x : ℕ} (hR : x ∉ R) (hnode : x ∉ d.nodes fs)
    (data : Buffer) {n : ℕ} (hn : n ≤ 4096) :
    Owns R (fs.writeBytes x data n) d ∧ Keeps R fs (fs.writeBytes x data n) := by
  have hb : x ∉ fs.bitmaps := fun hb => hR (h.bitmaps x hb)
  have hsize := h.sound.blockSize
  have hused : ∀ y, (fs.writeBytes x data n).used y = fs.used y :=
    Ext4FileSystem.used_writeBytes hsize hb data hn
  refine ⟨h.of_congr (h.sound.writeBytes hb data hn) rfl ?_ ?_ ?_, rfl, ?_⟩
  · intro y hy
    apply Ext4FileSystem.block_writeBytes_of_ne hsize _ data hn
    rintro rfl
    exact hnode hy
  · exact fun y hy => (hused y).trans (h.rest y hy)
  · exact fun y hy => (hused y).trans (h.used y hy)
  · intro y hy _
    apply Ext4FileSystem.block_writeBytes_of_ne hsize _ data hn
    rintro rfl
    exact hR hy

end Owns

/-! ## Growing the tree -/

/-- Blocks in hand: taken from the free ones and not yet part of anything. -/
structure Spare (R : Set ℕ) (fs : Ext4FileSystem) (d : Ext4InodeDisk) (xs : List ℕ) : Prop where
  nodup : xs.Nodup
  apart : ∀ x ∈ xs, x ∉ R
  other : ∀ x ∈ xs, x ∉ d.owned fs
  used : ∀ x ∈ xs, fs.used x = true

/-- The inode `d` became `d'`, taking in blocks of `xs` and blocks that were free. -/
structure Grows (R : Set ℕ) (fs : Ext4FileSystem) (d : Ext4InodeDisk) (xs : List ℕ)
    (fs' : Ext4FileSystem) (d' : Ext4InodeDisk) : Prop where
  owns : Owns R fs' d'
  keeps : Keeps R fs fs'
  used : ∀ x, fs.used x = true → fs'.used x = true
  source : ∀ x ∈ d'.owned fs', x ∈ d.owned fs ∨ x ∈ xs ∨ fs.used x = false
  inline : d'.inlineDataFl = d.inlineDataFl
  size : d'.size = d.size

theorem Owns.grows_refl (h : Owns R fs d) (xs : List ℕ) : Grows R fs d xs fs d :=
  ⟨h, Keeps.refl R fs, fun _ hx => hx, fun _ hx => Or.inl hx, rfl, rfl⟩

/-- The inode after its leaf root was rewritten to map the blocks in hand as well. -/
theorem Owns.regrow {xs : List ℕ} (h : Owns R fs d) (hspare : Spare R fs d xs)
    (hinline : d.hasInlineData = false) (hdepth : (extentHeader d.block).depth = 0)
    {root : Buffer} (hroot : (extentHeader root).depth = 0)
    (hfits : Ext4InodeDisk.RootFits root)
    (hperm : ((extents root).flatMap Ext4Extent.blocks).Perm
      ((extents d.block).flatMap Ext4Extent.blocks ++ xs))
    (hlen : ∀ e ∈ extents root, e.len ≠ 0) :
    Grows R fs d xs fs { d with block := root } := by
  set d' : Ext4InodeDisk := { d with block := root }
  have hinline' : d'.hasInlineData = false := hinline
  have howned : (d'.owned fs).Perm (d.owned fs ++ xs) := by
    rw [Ext4InodeDisk.owned_leaf hinline' hroot, Ext4InodeDisk.owned_leaf hinline hdepth]
    exact hperm
  refine ⟨⟨h.sound, h.bitmaps, h.rest, ⟨h.ordered.flags, h.ordered.inlineSize, fun _ => hfits, ?_⟩,
    ?_, ?_, ?_⟩,
    Keeps.refl R fs, fun _ hx => hx, ?_, rfl, rfl⟩
  · rw [Ext4InodeDisk.liveExtents_leaf hinline' hroot]
    exact hlen
  · rw [howned.nodup_iff, List.nodup_append']
    exact ⟨h.nodup, hspare.nodup, fun x hx hx' => hspare.other x hx' hx⟩
  · intro x hx
    rcases List.mem_append.mp (howned.mem_iff.mp hx) with hx | hx
    · exact h.apart x hx
    · exact hspare.apart x hx
  · intro x hx
    rcases List.mem_append.mp (howned.mem_iff.mp hx) with hx | hx
    · exact h.used x hx
    · exact hspare.used x hx
  · intro x hx
    rcases List.mem_append.mp (howned.mem_iff.mp hx) with hx | hx
    · exact Or.inl hx
    · exact Or.inr (Or.inl hx)

/-- A split that comes back: the extents of the root in two fresh leaves, and the root
pointing to these. -/
structure Split (fs : Ext4FileSystem) (root : Buffer) (fs' : Ext4FileSystem) (root' : Buffer)
    (leftBlock rightBlock : ℕ) (left right : List Ext4Extent) (first second : Ext4Extent) :
    Prop where
  fresh : ∃ fs₁, Fresh fs fs₁ [leftBlock, rightBlock] ∧
    fs' = (fs₁.writeBytes leftBlock (initAsLeaf left) 4096).writeBytes rightBlock
      (initAsLeaf right) 4096
  extents : extents root = left ++ right
  left : left.head? = some first
  right : right.head? = some second
  depth : (extentHeader root').depth ≠ 0
  idxs : extentIdxs root' = [Ext4ExtentIdx.new first.logicalBlock leftBlock,
    Ext4ExtentIdx.new second.logicalBlock rightBlock]

theorem splitLeafBlock_eq_some (hs : fs.Sound) {root root' : Buffer}
    (hdepth : (extentHeader root).depth = 0)
    (h : Ext4InodeDisk.splitLeafBlock root fs = some (root', fs')) :
    ∃ leftBlock rightBlock left right first second,
      Split fs root fs' root' leftBlock rightBlock left right first second := by
  simp only [Ext4InodeDisk.splitLeafBlock, Option.bind_eq_bind, Option.bind_eq_some_iff,
    Option.pure_def, Option.some.injEq, Prod.mk.injEq, Prod.exists] at h
  obtain ⟨leftBlock, fs₁, ha₁, rightBlock, fs₂, ha₂, first, hfirst, second, hsecond, hroot, hfs⟩ :=
    h
  have hf₁ := hs.allocOneBlock ha₁
  have hf₂ := hf₁.sound.allocOneBlock ha₂
  refine ⟨leftBlock, rightBlock, _, _, first, second, ⟨fs₂, hf₁.trans hs hf₂, ?_⟩,
    (List.take_append_drop ((extents root).length / 2) (extents root)).symm, hfirst, hsecond,
    ?_, ?_⟩
  · rw [← hfs, hs.blockSize]
  · rw [← hroot, (extentIdxs_two root _ _ rfl).1, hdepth]
    exact (by decide : (0 + 1 : UInt16) ≠ 0)
  · rw [← hroot, (extentIdxs_two root _ _ rfl).2]

namespace Split

variable {root root' : Buffer} {leftBlock rightBlock : ℕ} {left right : List Ext4Extent}
  {first second : Ext4Extent}

/-- What the file system is after a split: two blocks more in use, each with its leaf. -/
theorem spec (h : Split fs root fs' root' leftBlock rightBlock left right first second)
    (hs : fs.Sound) (hlen : (Ext4ExtentBlock.extents root).length ≤ 340) :
    fs'.Sound ∧ fs'.bitmaps = fs.bitmaps ∧ leftBlock ≠ rightBlock ∧
      (∀ x ∈ [leftBlock, rightBlock], fs.used x = false ∧ fs'.used x = true) ∧
      (∀ x, fs.used x = true → fs'.used x = true) ∧
      (∀ x, x ∉ fs.bitmaps → x ∉ [leftBlock, rightBlock] → fs'.block x = fs.block x) ∧
      ((extentHeader (fs'.block leftBlock)).depth = 0 ∧
        Ext4ExtentBlock.extents (fs'.block leftBlock) = left) ∧
      ((extentHeader (fs'.block rightBlock)).depth = 0 ∧
        Ext4ExtentBlock.extents (fs'.block rightBlock) = right) := by
  obtain ⟨fs₁, hf, hfs⟩ := h.fresh
  have hbs := hf.sound.blockSize
  have hl : leftBlock ∉ fs₁.bitmaps := by
    rw [hf.bitmaps]
    exact hf.not_bitmap hs (by simp)
  have hr : rightBlock ∉ fs₁.bitmaps := by
    rw [hf.bitmaps]
    exact hf.not_bitmap hs (by simp)
  have hne : leftBlock ≠ rightBlock := by
    have := hf.nodup
    simpa using this
  rw [h.extents, List.length_append] at hlen
  set fs₂ := fs₁.writeBytes leftBlock (initAsLeaf left) 4096
  have hbs₂ : fs₂.blockSize = 4096 := hbs
  have hr₂ : rightBlock ∉ fs₂.bitmaps := hr
  have hused : ∀ x, fs'.used x = fs₁.used x := fun x => by
    rw [hfs, Ext4FileSystem.used_writeBytes hbs₂ hr₂ _ le_rfl,
      Ext4FileSystem.used_writeBytes hbs hl _ le_rfl]
  have hsound : fs'.Sound := by
    rw [hfs]
    exact (hf.sound.writeBytes hl _ le_rfl).writeBytes hr _ le_rfl
  have hother : ∀ x, x ≠ leftBlock → x ≠ rightBlock → fs'.block x = fs₁.block x := by
    intro x hx hx'
    rw [hfs, Ext4FileSystem.block_writeBytes_of_ne hbs₂ hx' _ le_rfl,
      Ext4FileSystem.block_writeBytes_of_ne hbs hx _ le_rfl]
  refine ⟨hsound, ?_, hne, fun x hx => ⟨hf.free x hx, ?_⟩, fun x hx => ?_, fun x hb hx => ?_,
    ?_, ?_⟩
  · rw [hfs]
    exact hf.bitmaps
  · rw [hused]
    exact hf.used_of_mem x hx
  · rw [hused]
    exact hf.used_mono x hx
  · have hx' : x ≠ leftBlock ∧ x ≠ rightBlock := by simpa using hx
    rw [hother x hx'.1 hx'.2, hf.block x hb hx]
  · refine extents_of_initAsLeaf (by omega) fun k hk => ?_
    rw [hfs, Ext4FileSystem.block_writeBytes_of_ne hbs₂ hne _ le_rfl,
      Ext4FileSystem.block_writeBytes_self hbs _ _ le_rfl]
    exact if_pos hk
  · refine extents_of_initAsLeaf (by omega) fun k hk => ?_
    rw [hfs, Ext4FileSystem.block_writeBytes_self hbs₂ _ _ le_rfl]
    exact if_pos hk

/-- The tree below the root a split leaves. -/
theorem tree (h : Split fs root fs' root' leftBlock rightBlock left right first second)
    (hs : fs.Sound) (hlen : (Ext4ExtentBlock.extents root).length ≤ 340) :
    Ext4ExtentBlock.iterAllExtents fs'.device fs'.blockSize maxDepth root' =
        Ext4ExtentBlock.extents root ∧
      nodeBlocks fs'.device fs'.blockSize maxDepth root' = [leftBlock, rightBlock] := by
  obtain ⟨hsound, -, -, hnew, -, -, hl, hr⟩ := h.spec hs hlen
  have hlt : ∀ x ∈ [leftBlock, rightBlock], x < 2 ^ 48 := fun x hx => by
    have := hsound.lt_of_used (hnew x hx).2
    omega
  have hli : (Ext4ExtentIdx.new first.logicalBlock leftBlock).physicalLeafBlock = leftBlock :=
    Ext4ExtentIdx.physicalLeafBlock_new _ (hlt _ (by simp))
  have hri : (Ext4ExtentIdx.new second.logicalBlock rightBlock).physicalLeafBlock = rightBlock :=
    Ext4ExtentIdx.physicalLeafBlock_new _ (hlt _ (by simp))
  obtain ⟨hiter, hnodes⟩ := @tree_two fs'.device fs'.blockSize 65534 root' _ _ h.depth h.idxs
    (by rw [hli]; exact hl.1) (by rw [hri]; exact hr.1)
  rw [hli, hri] at hiter hnodes
  refine ⟨?_, hnodes⟩
  rw [maxDepth_eq, hiter, h.extents]
  exact congrArg₂ _ hl.2 hr.2

end Split

/-- Splitting a full root moves its extents into two fresh blocks. -/
theorem Owns.splitLeafBlock (h : Owns R fs d) (hinline : d.hasInlineData = false)
    (hdepth : (extentHeader d.block).depth = 0) {root : Buffer}
    (hsplit : Ext4InodeDisk.splitLeafBlock d.block fs = some (root, fs')) (xs : List ℕ) :
    Grows R fs d xs fs' { d with block := root } := by
  obtain ⟨leftBlock, rightBlock, left, right, first, second, hs⟩ :=
    splitLeafBlock_eq_some h.sound hdepth hsplit
  have hlen : (extents d.block).length ≤ 340 := by
    have := h.ordered.root hinline hdepth
    rw [length_extents]
    omega
  obtain ⟨hsound, hbitmaps, hne, hnew, hmono, hblock, -⟩ := hs.spec h.sound hlen
  obtain ⟨hiter, hnodes⟩ := hs.tree h.sound hlen
  set d' : Ext4InodeDisk := { d with block := root } with hd'
  have hinline' : d'.hasInlineData = false := hinline
  have hlive : d'.liveExtents fs' = extents d.block := by
    rw [Ext4InodeDisk.liveExtents, hinline', Ext4InodeDisk.iterAllExtents]
    simp only [Bool.false_eq_true, if_false]
    exact hiter
  have hnodes' : d'.nodes fs' = [leftBlock, rightBlock] := by
    rw [Ext4InodeDisk.nodes, hinline']
    exact hnodes
  have howned : d'.owned fs' = d.owned fs ++ [leftBlock, rightBlock] := by
    rw [Ext4InodeDisk.owned, Ext4InodeDisk.mapped, hlive, hnodes',
      Ext4InodeDisk.owned_leaf hinline hdepth]
  have hfree : ∀ x ∈ [leftBlock, rightBlock], ∀ y, fs.used y = true → x ≠ y := by
    rintro x hx y hy rfl
    rw [(hnew x hx).1] at hy
    cases hy
  refine ⟨⟨hsound, hbitmaps ▸ h.bitmaps, fun x hx => hmono x (h.rest x hx),
    ⟨h.ordered.flags, h.ordered.inlineSize, fun _ h0 => absurd h0 hs.depth, ?_⟩, ?_, ?_, ?_⟩,
    ⟨hbitmaps, ?_⟩, hmono, ?_, rfl, rfl⟩
  · have hlive₀ : d.liveExtents fs = extents d.block :=
      Ext4InodeDisk.liveExtents_leaf hinline hdepth
    rw [hlive, ← hlive₀]
    exact h.ordered.len
  · rw [howned, List.nodup_append']
    refine ⟨h.nodup, by simpa using hne, fun x hx hx' => ?_⟩
    exact hfree x hx' x (h.used x hx) rfl
  · intro x hx
    rw [howned, List.mem_append] at hx
    rcases hx with hx | hx
    · exact h.apart x hx
    · exact fun hR => hfree x hx x (h.rest x hR) rfl
  · intro x hx
    rw [howned, List.mem_append] at hx
    rcases hx with hx | hx
    · exact hmono x (h.used x hx)
    · exact (hnew x hx).2
  · intro x hx hb
    exact hblock x hb fun hmem => hfree x hmem x (h.rest x hx) rfl
  · intro x hx
    rw [howned, List.mem_append] at hx
    rcases hx with hx | hx
    · exact Or.inl hx
    · exact Or.inr (Or.inr (hnew x hx).1)

/-- The blocks of a live extent have small numbers. -/
theorem Owns.extent_lt (h : Owns R fs d) {e : Ext4Extent} (he : e ∈ d.liveExtents fs) :
    e.physicalStartBlock + e.len.toNat < 2 ^ 32 := by
  have hlen : e.len.toNat ≠ 0 := by
    have := h.ordered.len e he
    simpa [← UInt16.toNat_inj] using this
  have hlast : e.physicalStartBlock + (e.len.toNat - 1) ∈ e.blocks := by
    rw [Ext4Extent.blocks, List.mem_range'_1]
    omega
  have := h.sound.lt_of_used (h.used _
    (Ext4InodeDisk.mem_owned_of_mapped (Ext4InodeDisk.mem_mapped he hlast)))
  omega

/-- Replacing an entry by a longer one adds the difference. -/
theorem flatMap_set_perm {α β : Type*} {f : α → List β} {es : List α} {i : ℕ} {a a' : α}
    {xs : List β} (ha : es[i]? = some a) (hf : f a' = f a ++ xs) :
    ((es.set i a').flatMap f).Perm (es.flatMap f ++ xs) := by
  obtain ⟨hi, hget⟩ := List.getElem?_eq_some_iff.mp ha
  have hes : es = es.take i ++ a :: es.drop (i + 1) := by
    rw [← hget, List.cons_getElem_drop_succ, List.take_append_drop]
  rw [List.set_eq_take_append_cons_drop, if_pos hi]
  nth_rewrite 3 [hes]
  simp only [List.flatMap_append, List.flatMap_cons, hf, List.append_assoc]
  refine List.Perm.append_left _ (List.Perm.append_left _ ?_)
  exact List.perm_append_comm

/-- What a call of `insert_extent` that comes back did. -/
inductive InsertedBy (d : Ext4InodeDisk) (fs : Ext4FileSystem) (l : UInt32) (p : ℕ)
    (n : UInt32) : Except String Unit → Ext4InodeDisk → Ext4FileSystem → Prop
  /-- The run went into a copy of a block below the root. -/
  | below {r : Except String Unit} (depth : (extentHeader d.block).depth ≠ 0)
    (result : Ext4InodeDisk.insertBelow d.block fs l p n = some r) : InsertedBy d fs l p n r d fs
  /-- An extent of the root became longer. -/
  | merged {i : ℕ} {e : Ext4Extent} {root : Buffer} (depth : (extentHeader d.block).depth = 0)
    (find : (extents d.block).find? (fun e => e.mergesWith l p) = some e)
    (get : (extents d.block)[i]? = some e) (merges : e.mergesWith l p = true)
    (header : extentHeader root = extentHeader d.block)
    (extents : extents root = (extents d.block).set i { e with len := e.len + n.toUInt16 }) :
    InsertedBy d fs l p n (.ok ()) { d with block := root } fs
  /-- The root was full and was split, and the run went into a copy of one half. -/
  | split {r : Except String Unit} {root : Buffer} {fs' : Ext4FileSystem}
    (depth : (extentHeader d.block).depth = 0)
    (find : (Ext4ExtentBlock.extents d.block).find? (fun e => e.mergesWith l p) = none)
    (full : (extentHeader d.block).entries = (extentHeader d.block).max)
    (split : Ext4InodeDisk.splitLeafBlock d.block fs = some (root, fs'))
    (result : Ext4InodeDisk.insertBelow root fs' l p n = some r) :
    InsertedBy d fs l p n r { d with block := root } fs'
  /-- The root got a slot more. -/
  | added {root : Buffer} (depth : (extentHeader d.block).depth = 0)
    (find : (Ext4ExtentBlock.extents d.block).find? (fun e => e.mergesWith l p) = none)
    (room : (extentHeader d.block).entries ≠ (extentHeader d.block).max)
    (depth' : (extentHeader root).depth = 0)
    (max : (extentHeader root).max = (extentHeader d.block).max)
    (entries : (extentHeader root).entries.toNat = (extentHeader d.block).entries.toNat + 1)
    (perm : (Ext4ExtentBlock.extents root).Perm
      (Ext4ExtentBlock.extents d.block ++ [Ext4Extent.new l n.toUInt16 p]))
    (sorted : (Ext4ExtentBlock.extents root).Pairwise fun a b => a.logicalBlock ≤ b.logicalBlock) :
    InsertedBy d fs l p n (.ok ()) { d with block := root } fs

/-- A root with no more entries than it has room for takes a run in one of the four ways. -/
theorem insertExtent_insertedBy {l n : UInt32} {p : ℕ} {r : Except String Unit}
    (hfits : (extentHeader d.block).depth = 0 →
      (extentHeader d.block).entries.toNat ≤ (extentHeader d.block).max.toNat)
    (h : d.insertExtent l p n fs = some (r, d', fs')) : InsertedBy d fs l p n r d' fs' := by
  unfold Ext4InodeDisk.insertExtent at h
  dsimp only at h
  split at h
  · rename_i hdepth
    obtain ⟨r', hr, heq⟩ := Option.map_eq_some_iff.mp h
    cases heq
    exact .below (UInt16.pos_iff_ne_zero.mp hdepth) hr
  · rename_i hdepth
    have hdepth : (extentHeader d.block).depth = 0 := by
      by_contra hne
      exact hdepth (UInt16.pos_iff_ne_zero.mpr hne)
    split at h
    · rename_i i hfind
      cases h
      obtain ⟨hlt, hmerge, hbefore⟩ := List.findIdx?_eq_some_iff_getElem.mp hfind
      have hget : (extents d.block)[i]? = some (extents d.block)[i] := List.getElem?_eq_getElem hlt
      refine .merged hdepth ?_ hget hmerge (extentHeader_growSlot ..) (extents_growSlot _ hget)
      rw [List.find?_eq_some_iff_getElem]
      exact ⟨hmerge, i, hlt, rfl, fun j hj => by simpa using hbefore j hj⟩
    · rename_i hnone
      have hfind : (extents d.block).find? (fun e => e.mergesWith l p) = none := by
        rw [List.find?_eq_none]
        intro e he
        simpa using List.findIdx?_eq_none_iff.mp hnone e he
      split at h
      · rename_i hfull
        split at h
        · cases h
        · rename_i root fs₁ hsplit
          obtain ⟨r', hr, heq⟩ := Option.map_eq_some_iff.mp h
          cases heq
          exact .split hdepth hfind hfull hsplit hr
      · rename_i hroom
        cases h
        have hroom' : (extentHeader d.block).entries.toNat ≠ (extentHeader d.block).max.toNat :=
          fun heq => hroom (UInt16.toNat_inj.mp heq)
        have hentries : ((extentHeader d.block).entries + 1).toNat =
            (extentHeader d.block).entries.toNat + 1 := by
          have := (extentHeader d.block).max.toNat_lt
          have := hfits hdepth
          rw [UInt16.toNat_add]
          simp only [UInt16.toNat_one]
          omega
        have hperm := List.perm_insertionSort (fun a b : Ext4Extent =>
          a.logicalBlock ≤ b.logicalBlock) (extents d.block ++ [Ext4Extent.new l n.toUInt16 p])
        have hsorted := List.pairwise_insertionSort (fun a b : Ext4Extent =>
          a.logicalBlock ≤ b.logicalBlock) (extents d.block ++ [Ext4Extent.new l n.toUInt16 p])
        set sorted := (extents d.block ++ [Ext4Extent.new l n.toUInt16 p]).insertionSort
          (fun a b => a.logicalBlock ≤ b.logicalBlock)
        have hextents : extents (writeExtents ({ extentHeader d.block with
            entries := (extentHeader d.block).entries + 1 }.write d.block) 0 sorted) = sorted := by
          refine extents_writeExtents ?_
          rw [extentHeader_write, hperm.length_eq, List.length_append, length_extents]
          exact hentries
        have hheader : extentHeader (writeExtents ({ extentHeader d.block with
            entries := (extentHeader d.block).entries + 1 }.write d.block) 0 sorted) =
            { extentHeader d.block with entries := (extentHeader d.block).entries + 1 } := by
          rw [extentHeader_writeExtents, extentHeader_write]
        refine .added hdepth hfind hroom ?_ ?_ ?_ ?_ ?_
        · rw [hheader]
          exact hdepth
        · rw [hheader]
        · rw [hheader]
          exact hentries
        · rw [hextents]
          exact hperm
        · rw [hextents]
          exact hsorted

/-- **Insertion** of a run in hand. -/
theorem Owns.insertExtent (h : Owns R fs d) (hinline : d.hasInlineData = false) {l : UInt32}
    {p n : ℕ} (hspare : Spare R fs d (List.range' p n)) (hpos : 0 < n) (hn : n ≤ 32768)
    {r : Except String Unit}
    (hi : d.insertExtent l p (UInt32.ofNat n) fs = some (r, d', fs')) :
    Grows R fs d (List.range' p n) fs' d' := by
  have hp : p < 64 * 32768 := h.sound.lt_of_used (hspare.used p (by simp [hpos]))
  have hfits := h.ordered.root hinline
  have hlive : (extentHeader d.block).depth = 0 → d.liveExtents fs = extents d.block :=
    Ext4InodeDisk.liveExtents_leaf hinline
  cases insertExtent_insertedBy (fun hdepth => (hfits hdepth).1) hi with
  | below _ _ => exact h.grows_refl _
  | @merged i e root hdepth _ hget hmerge hheader hextents =>
    have hlive_i : e ∈ d.liveExtents fs := hlive hdepth ▸ List.mem_of_getElem? hget
    have hgrow := Ext4Extent.blocks_grow hmerge hn (by omega) (h.extent_lt hlive_i)
    refine h.regrow hspare hinline hdepth ?_ ?_ ?_ ?_
    · rw [hheader, hdepth]
    · intro _
      rw [hheader]
      exact hfits hdepth
    · rw [hextents]
      exact flatMap_set_perm hget hgrow
    · intro f hf
      rw [hextents] at hf
      rcases List.mem_or_eq_of_mem_set hf with hf | rfl
      · exact h.ordered.len f (hlive hdepth ▸ hf)
      · have := congrArg List.length hgrow
        simp only [Ext4Extent.blocks, List.length_append, List.length_range'] at this
        rw [Ne, ← UInt16.toNat_inj]
        simp only [UInt16.toNat_zero]
        omega
  | split hdepth _ _ hsplit _ => exact h.splitLeafBlock hinline hdepth hsplit _
  | added hdepth _ hroom hdepth' hmax hentries hperm _ =>
    have hroom' : (extentHeader d.block).entries.toNat ≠ (extentHeader d.block).max.toNat :=
      fun heq => hroom (UInt16.toNat_inj.mp heq)
    have hblocks : (Ext4Extent.new l (UInt32.ofNat n).toUInt16 p).blocks = List.range' p n :=
      Ext4Extent.blocks_new n (by omega) hn
    have hroot := hfits hdepth
    refine h.regrow hspare hinline hdepth ?_ ?_ ?_ ?_
    · exact hdepth'
    · intro _
      rw [hentries, hmax]
      exact ⟨by omega, hroot.2⟩
    · refine (hperm.flatMap_right _).trans ?_
      rw [List.flatMap_append, List.flatMap_singleton, hblocks]
    · intro e he
      rcases List.mem_append.mp (hperm.mem_iff.mp he) with he | he
      · exact h.ordered.len e (hlive hdepth ▸ he)
      · rw [List.mem_singleton.mp he]
        have := congrArg List.length hblocks
        simp only [Ext4Extent.blocks, List.length_range'] at this
        rw [Ne, ← UInt16.toNat_inj]
        simp only [UInt16.toNat_zero]
        omega

namespace Grows

variable {xs ys : List ℕ} {d'' : Ext4InodeDisk}

/-- Blocks still in hand after an insertion. -/
theorem spare (h : Grows R fs d xs fs' d') (hy : Spare R fs d ys) (hdisj : ∀ y ∈ ys, y ∉ xs) :
    Spare R fs' d' ys := by
  refine ⟨hy.nodup, hy.apart, fun y hy' hown => ?_, fun y hy' => h.used y (hy.used y hy')⟩
  rcases h.source y hown with hd | hxs | hfree
  · exact hy.other y hy' hd
  · exact hdisj y hy' hxs
  · rw [hy.used y hy'] at hfree
    cases hfree

end Grows

/-- Fresh blocks are in hand. -/
theorem Owns.spare_of_fresh (h : Owns R fs d) {xs : List ℕ} (hf : Fresh fs fs' xs) :
    Spare R fs' d xs := by
  refine ⟨hf.nodup, fun x hx hR => ?_, fun x hx hown => ?_, hf.used_of_mem⟩
  · exact hf.not_mem_of_used (h.rest x hR) hx
  · rw [(h.fresh hf).2.2.1] at hown
    exact hf.not_mem_of_used (h.used x hown) hx

/-- What an operation on an inode guarantees to everything else, and to the inode. -/
structure Owns.Step (R : Set ℕ) (fs : Ext4FileSystem) (fs' : Ext4FileSystem)
    (d' : Ext4InodeDisk) : Prop where
  owns : Owns R fs' d'
  keeps : Keeps R fs fs'

/-- **`lookup_or_create_extent`.** -/
theorem Owns.lookupOrCreateExtent (h : Owns R fs d) (hinline : d.hasInlineData = false)
    {l : UInt32} {e : Ext4Extent} (hl : d.lookupOrCreateExtent fs l = some (e, d', fs')) :
    Owns.Step R fs fs' d' ∧ d'.inlineDataFl = d.inlineDataFl ∧ d'.size = d.size := by
  unfold Ext4InodeDisk.lookupOrCreateExtent at hl
  split at hl
  · cases hl
    exact ⟨⟨h, Keeps.refl R fs⟩, rfl, rfl⟩
  · split at hl
    · cases hl
    · rename_i newBlock fs₁ halloc
      have hf := h.sound.allocOneBlock halloc
      obtain ⟨h₁, hkeeps, -, -⟩ := h.fresh hf
      have hlt : newBlock < 64 * 32768 := hf.lt (by simp)
      dsimp only at hl
      rw [Ext4Extent.physicalStartBlock_new _ _ (by omega)] at hl
      split at hl
      · rename_i r d₁ fs₂ hins
        cases hl
        have hg := h₁.insertExtent hinline (n := 1) (h.spare_of_fresh hf) (by omega) (by omega)
          hins
        exact ⟨⟨hg.owns, hkeeps.trans hg.keeps⟩, hg.inline, hg.size⟩
      · cases hl

/-! ## Changes to the record -/

namespace Owns

/-- Blocks in hand can be counted to the rest. -/
theorem set_aside (h : Owns R fs d) {xs : List ℕ} (hx : Spare R fs d xs) :
    Owns (R ∪ {x | x ∈ xs}) fs d := by
  refine ⟨h.sound, fun x hb => Or.inl (h.bitmaps x hb), ?_, h.ordered, h.nodup, ?_, h.used⟩
  · rintro x (hR | hxs)
    · exact h.rest x hR
    · exact hx.used x hxs
  · rintro x hown (hR | hxs)
    · exact h.apart x hown hR
    · exact hx.other x hxs hown

theorem mono {R' : Set ℕ} (h : Owns R' fs d) (hR : R ⊆ R') (hb : ∀ x ∈ fs.bitmaps, x ∈ R) :
    Owns R fs d :=
  ⟨h.sound, hb, fun x hx => h.rest x (hR hx), h.ordered, h.nodup,
    fun x hx hx' => h.apart x hx (hR hx'), h.used⟩

theorem setSize (h : Owns R fs d) {n : ℕ} (hn : d.hasInlineData = true → n ≤ 60) :
    Owns R fs { d with size := n } :=
  ⟨h.sound, h.bitmaps, h.rest, ⟨h.ordered.flags, hn, h.ordered.root, h.ordered.len⟩, h.nodup,
    h.apart, h.used⟩

/-- The inode with a leaf root over the blocks `xs`, whatever it had before. -/
theorem reroot (h : Owns R fs d) {root : Buffer} {xs : List ℕ} (hx : Spare R fs d xs)
    (hdepth : (extentHeader root).depth = 0) (hfits : Ext4InodeDisk.RootFits root)
    (hblocks : (extents root).flatMap Ext4Extent.blocks = xs)
    (hlen : ∀ e ∈ extents root, e.len ≠ 0) :
    Owns R fs { d with inlineDataFl := false, extentsFl := true, block := root } := by
  set d' : Ext4InodeDisk := { d with inlineDataFl := false, extentsFl := true, block := root }
  have hinline : d'.hasInlineData = false := rfl
  have howned : d'.owned fs = xs := by
    rw [Ext4InodeDisk.owned_leaf hinline hdepth]
    exact hblocks
  refine ⟨h.sound, h.bitmaps, h.rest, ⟨fun _ => rfl, fun h0 => absurd h0 (by simp [hinline]),
    fun _ => hfits, ?_⟩, howned ▸ hx.nodup, howned ▸ hx.apart, howned ▸ hx.used⟩
  rw [Ext4InodeDisk.liveExtents_leaf hinline hdepth]
  exact hlen

/-- The inode with an empty root. -/
theorem initRoot (h : Owns R fs d) :
    Owns R fs { d with inlineDataFl := false, extentsFl := true
                       block := Ext4ExtentHeader.newRoot.write d.block } := by
  have hext : extents (Ext4ExtentHeader.newRoot.write d.block) = [] := by
    rw [extents_write]
    rfl
  have hempty : Spare R fs d [] := ⟨List.nodup_nil, by simp, by simp, by simp⟩
  refine h.reroot hempty ?_ ?_ ?_ ?_
  · rw [extentHeader_write]
    rfl
  · intro _
    rw [extentHeader_write]
    decide
  · rw [hext]
    rfl
  · simp [hext]

end Owns

/-! ## Pages and writes -/

variable {ino ino' : Ext4Inode}

theorem Owns.Step.refl (h : Owns R fs d) : Owns.Step R fs fs d := ⟨h, Keeps.refl R fs⟩

theorem Owns.Step.trans (h : Owns.Step R fs fs' d) (h' : Owns.Step R fs' fs'' d') :
    Owns.Step R fs fs'' d' := ⟨h'.owns, h.keeps.trans h'.keeps⟩

theorem Owns.getPageCache (h : Owns R fs ino.inodeOnDisk) {i : ℕ} {p : Option Page}
    (hg : ino.getPageCache fs i = some (p, ino', fs')) :
    Owns.Step R fs fs' ino'.inodeOnDisk ∧
      ino'.inodeOnDisk.inlineDataFl = ino.inodeOnDisk.inlineDataFl ∧
      ino'.inodeOnDisk.size = ino.inodeOnDisk.size := by
  unfold Ext4Inode.getPageCache at hg
  split at hg
  · cases hg
    exact ⟨.refl h, rfl, rfl⟩
  · rename_i hin
    split at hg
    · cases hg
      exact ⟨.refl h, rfl, rfl⟩
    · split at hg
      · cases hg
        exact ⟨.refl h, rfl, rfl⟩
      · rename_i hpage
        dsimp only at hg
        have hinline : ino.inodeOnDisk.hasInlineData = false := by
          by_contra hin'
          rw [Bool.not_eq_false] at hin'
          have hle := h.ordered.inlineSize hin'
          refine hpage ⟨?_, hin'⟩
          unfold Ext4InodeDisk.sizeLo pageSize at hin
          omega
        split at hg
        · cases hg
        · rename_i e d₁ fs₁ hl
          cases hg
          exact h.lookupOrCreateExtent hinline hl

theorem Owns.writePage (h : Owns R fs ino.inodeOnDisk)
    (hinline : ino.inodeOnDisk.hasInlineData = false) {i : ℕ} {current current' : Option Ext4Extent}
    {p : Page} (hw : ino.writePage fs i current = some (p, current', ino', fs')) :
    Owns.Step R fs fs' ino'.inodeOnDisk ∧ ino'.inodeOnDisk.hasInlineData = false := by
  unfold Ext4Inode.writePage at hw
  split at hw
  · cases hw
    exact ⟨.refl h, hinline⟩
  · dsimp only at hw
    split at hw
    · cases hw
      exact ⟨.refl h, hinline⟩
    · split at hw
      · cases hw
      · rename_i e d₁ fs₁ hl
        cases hw
        obtain ⟨hstep, hin, -⟩ := h.lookupOrCreateExtent hinline hl
        exact ⟨hstep, hin.trans hinline⟩

theorem Owns.writeLoop {fuel i off : ℕ} {current : Option Ext4Extent} {buf : List (BitVec 8)}
    (h : Owns R fs ino.inodeOnDisk) (hinline : ino.inodeOnDisk.hasInlineData = false)
    (hw : Ext4Inode.writeLoop fuel i off current buf ino fs = some (ino', fs')) :
    Owns.Step R fs fs' ino'.inodeOnDisk ∧ ino'.inodeOnDisk.hasInlineData = false := by
  induction fuel generalizing i off current buf ino fs with
  | zero =>
    cases hw
    exact ⟨.refl h, hinline⟩
  | succ fuel ih =>
    unfold Ext4Inode.writeLoop at hw
    split at hw
    · cases hw
      exact ⟨.refl h, hinline⟩
    · split at hw
      · cases hw
      · rename_i p current' ino₁ fs₁ hpage
        obtain ⟨hstep, hin⟩ := h.writePage hinline hpage
        obtain ⟨hstep', hin'⟩ := ih (by exact hstep.owns) (by exact hin) hw
        exact ⟨hstep.trans hstep', hin'⟩

theorem Owns.writeExtentTree (h : Owns R fs ino.inodeOnDisk)
    (hinline : ino.inodeOnDisk.hasInlineData = false) {off n : ℕ} {buf : List (BitVec 8)}
    (hw : ino.writeExtentTree fs off buf = some (n, ino', fs')) :
    Owns.Step R fs fs' ino'.inodeOnDisk := by
  unfold Ext4Inode.writeExtentTree at hw
  split at hw
  · cases hw
  · rename_i ino₁ fs₁ hloop
    obtain ⟨hstep, hin⟩ := h.writeLoop hinline hloop
    cases hw
    split
    · refine ⟨hstep.owns.setSize fun h0 => ?_, hstep.keeps⟩
      rw [hin] at h0
      cases h0
    · exact hstep

/-- A root with one extent over one block. -/
theorem extents_single (b : Buffer) (e : Ext4Extent) :
    extentHeader (e.write ({ Ext4ExtentHeader.newRoot with entries := 1 }.write b) 12) =
        { Ext4ExtentHeader.newRoot with entries := 1 } ∧
      extents (e.write ({ Ext4ExtentHeader.newRoot with entries := 1 }.write b) 12) = [e] := by
  have hslot := extents_writeSlot ({ Ext4ExtentHeader.newRoot with entries := 1 }.write b) 0 e
  have hheader := extentHeader_writeSlot
    ({ Ext4ExtentHeader.newRoot with entries := 1 }.write b) 0 e
  rw [extentHeader_write] at hheader
  rw [extents_write] at hslot
  exact ⟨hheader, hslot⟩

/-- The conversion of a small file: it now owns the one block taken for it. -/
theorem Owns.convert (h : Owns R fs ino.inodeOnDisk) {off : ℕ}
    (hc : ino.convert fs off = some (ino', fs')) :
    Owns.Step R fs fs' ino'.inodeOnDisk ∧ ino'.inodeOnDisk.hasInlineData = false := by
  unfold Ext4Inode.convert at hc
  split at hc
  · cases hc
  rename_i newBlock fs₁ halloc
  split at hc
  · cases hc
  rename_i ino₁ fs₂ hpage
  cases hc
  have hf := h.sound.allocOneBlock halloc
  obtain ⟨h₁, hkeeps, -, -⟩ := h.fresh hf
  have hspare := h.spare_of_fresh hf
  -- the new block is set aside while the inline page is fetched
  have haside : Owns.Step (R ∪ {x | x ∈ [newBlock]}) fs₁ fs' ino₁.inodeOnDisk := by
    have h₂ := h₁.set_aside hspare
    unfold Ext4Inode.convertPage at hpage
    split at hpage
    · split at hpage
      · rename_i page ino₂ fs₃ hget
        cases hpage
        exact (h₂.getPageCache hget).1
      · cases hpage
    · cases hpage
      exact .refl h₂
  have hR : R ⊆ R ∪ {x | x ∈ [newBlock]} := Set.subset_union_left
  have hbit : ∀ x ∈ fs'.bitmaps, x ∈ R := by
    rw [haside.keeps.bitmaps]
    exact h₁.bitmaps
  have hspare₂ : Spare R fs' ino₁.inodeOnDisk [newBlock] := by
    refine ⟨hspare.nodup, hspare.apart, fun x hx hown => ?_, fun x hx => ?_⟩
    · exact haside.owns.apart x hown (Or.inr hx)
    · exact haside.owns.rest x (Or.inr hx)
  have hlt : newBlock < 64 * 32768 := hf.lt (by simp)
  obtain ⟨hheader, hext⟩ := extents_single ino₁.inodeOnDisk.block
    (Ext4Extent.new (UInt32.ofNat off / UInt32.ofNat pageSize) 1 newBlock)
  refine ⟨⟨(haside.owns.mono hR hbit).reroot hspare₂ ?_ ?_ ?_ ?_, ?_⟩, rfl⟩
  · rw [hheader]
    rfl
  · intro _
    rw [hheader]
    decide
  · rw [hext]
    have := @Ext4Extent.blocks_new (UInt32.ofNat off / UInt32.ofNat pageSize) newBlock 1
      (by omega) (by omega)
    simpa using this
  · rw [hext]
    simp [Ext4Extent.new]
  · exact hkeeps.trans ⟨haside.keeps.bitmaps, fun x hx hb => haside.keeps.block x (Or.inl hx) hb⟩

/-- **Writing keeps ownership.** -/
theorem Owns.write (h : Owns R fs ino.inodeOnDisk) {off n : ℕ} {buf : List (BitVec 8)}
    (hw : ino.write fs off buf = some (n, ino', fs')) : Owns.Step R fs fs' ino'.inodeOnDisk := by
  unfold Ext4Inode.write at hw
  dsimp only at hw
  split at hw
  · rename_i hsmall
    simp only [Option.bind_eq_bind, Option.bind_eq_some_iff, Option.pure_def, Prod.exists] at hw
    obtain ⟨p, ino₁, fs₁, hget, page, -, hw⟩ := hw
    obtain ⟨hstep, hin, -⟩ := h.getPageCache hget
    split at hw
    · cases hw
    · cases hw
      split
      · exact ⟨hstep.owns.setSize fun _ => hsmall, hstep.keeps⟩
      · exact hstep
  · split at hw
    · simp only [Option.bind_eq_bind, Option.bind_eq_some_iff, Prod.exists] at hw
      obtain ⟨ino₁, fs₁, hconv, htree⟩ := hw
      obtain ⟨hstep, hin⟩ := h.convert hconv
      exact hstep.trans (hstep.owns.writeExtentTree hin htree)
    · rename_i hlarge
      have hinline : ino.inodeOnDisk.hasInlineData = false := by
        by_contra hin
        rw [Bool.not_eq_false] at hin
        exact hlarge (h.ordered.inlineSize hin)
      exact h.writeExtentTree hinline hw

/-! ## Allocation in advance and holes -/

theorem Owns.insertRuns {runs : List (ℕ × ℕ)} {current current' : UInt32} (h : Owns R fs d)
    (hinline : d.hasInlineData = false) (hspare : Spare R fs d (Ext4FileSystem.runBlocks runs))
    (hfits : ∀ run ∈ runs, RunFits run)
    (hi : Ext4Inode.insertRuns runs current d fs = some (current', d', fs')) :
    Owns.Step R fs fs' d' ∧ d'.hasInlineData = false := by
  induction runs generalizing current d fs with
  | nil =>
    cases hi
    exact ⟨.refl h, hinline⟩
  | cons run runs ih =>
    obtain ⟨start, n⟩ := run
    obtain ⟨hpos, hle⟩ := hfits (start, n) (List.mem_cons_self ..)
    have hnodup := hspare.nodup
    simp only [Ext4FileSystem.runBlocks, List.flatMap_cons] at hspare hnodup
    obtain ⟨hnodup₁, hnodup₂, hdisj⟩ := List.nodup_append'.mp hnodup
    have hhead : Spare R fs d (List.range' start n) :=
      ⟨hnodup₁, fun x hx => hspare.apart x (List.mem_append_left _ hx),
        fun x hx => hspare.other x (List.mem_append_left _ hx),
        fun x hx => hspare.used x (List.mem_append_left _ hx)⟩
    have htail : Spare R fs d (Ext4FileSystem.runBlocks runs) :=
      ⟨hnodup₂, fun x hx => hspare.apart x (List.mem_append_right _ hx),
        fun x hx => hspare.other x (List.mem_append_right _ hx),
        fun x hx => hspare.used x (List.mem_append_right _ hx)⟩
    unfold Ext4Inode.insertRuns at hi
    split at hi
    · rename_i r d₁ fs₁ hins
      have hg := h.insertExtent hinline hhead hpos hle hins
      have htail' := hg.spare htail fun y hy hx => hdisj hx hy
      obtain ⟨hstep, hin⟩ := ih hg.owns (hg.inline.trans hinline) htail'
        (fun run hrun => hfits run (List.mem_cons_of_mem _ hrun)) hi
      exact ⟨⟨hstep.owns, hg.keeps.trans hstep.keeps⟩, hin⟩
    · cases hi

theorem Owns.extendSize (h : Owns R fs ino.inodeOnDisk) {n : ℕ} {update : Bool}
    {r : Except Errno Unit} (he : ino.extendSize fs n update = some (r, ino', fs')) :
    Owns.Step R fs fs' ino'.inodeOnDisk := by
  unfold Ext4Inode.extendSize at he
  split at he
  · cases he
    exact .refl h
  split at he
  · cases he
  dsimp only at he
  set d₀ := if ino.inodeOnDisk.hasInlineData = true then
    { ino.inodeOnDisk with
      inlineDataFl := false, extentsFl := true
      block := Ext4ExtentHeader.newRoot.write ino.inodeOnDisk.block }
    else ino.inodeOnDisk with hd₀
  have h₀ : Owns R fs d₀ ∧ d₀.hasInlineData = false := by
    rw [hd₀]
    split
    · exact ⟨h.initRoot, rfl⟩
    · rename_i hin
      exact ⟨h, by simpa using hin⟩
  rcases halloc : fs.allocBlock (usize (Ext4Inode.blockCount n pageSize + 2 ^ 64 -
    (UInt32.ofNat (Ext4Inode.blockCount ino.getSize pageSize)).toNat)) with ⟨runs, fs₁⟩
  rw [halloc] at he
  obtain ⟨hfits, hf⟩ := h.sound.allocBlock halloc
  obtain ⟨h₁, hkeeps, -, -⟩ := h₀.1.fresh hf
  split at he
  · cases he
  · rename_i current d₁ fs₂ hins
    obtain ⟨hstep, hin⟩ := h₁.insertRuns h₀.2 (h₀.1.spare_of_fresh hf) hfits hins
    have hstep' : Owns.Step R fs fs₂ d₁ := ⟨hstep.owns, hkeeps.trans hstep.keeps⟩
    split at he
    · cases he
      exact hstep'
    · cases he
      dsimp only
      split
      · refine ⟨hstep'.owns.setSize fun h0 => ?_, hstep'.keeps⟩
        rw [hin] at h0
        cases h0
      · exact hstep'

/-- A `PUNCH_HOLE` that finds no block mapped in its range. -/
def PunchSafe (fs : Ext4FileSystem) (ino : Ext4Inode) (mode : FallocFlags) (offset len : ℕ) :
    Prop :=
  mode.contains .punchHole = true →
    ∀ b, offset / fs.blockSize ≤ b → b < usize (offset + len) / fs.blockSize →
      ino.inodeOnDisk.lookupExtent fs (UInt32.ofNat b) = none

theorem punch_of_none {bs : List ℕ}
    (h : ∀ b ∈ bs, d.lookupExtent fs (UInt32.ofNat b) = none) :
    bs.foldlM (Ext4Inode.punchBlock d) fs = some fs := by
  induction bs with
  | nil => rfl
  | cons b bs ih =>
    rw [List.foldlM_cons, Ext4Inode.punchBlock, h b (List.mem_cons_self ..)]
    exact ih fun b' hb' => h b' (List.mem_cons_of_mem _ hb')

/-- **Allocating in advance keeps ownership, and so does punching where nothing is mapped.** -/
theorem Owns.fallocate (h : Owns R fs ino.inodeOnDisk) {mode : FallocFlags} {off len : ℕ}
    (hsafe : PunchSafe fs ino mode off len) {r : Except Errno ℕ}
    (hf : ino.fallocate fs mode off len = some (r, ino', fs')) :
    Owns.Step R fs fs' ino'.inodeOnDisk := by
  unfold Ext4Inode.fallocate at hf
  split at hf
  · split at hf
    · cases hf
      exact .refl h
    · dsimp only at hf
      split at hf
      · obtain ⟨⟨r', ino₁, fs₁⟩, hext, heq⟩ := Option.map_eq_some_iff.mp hf
        cases heq
        exact h.extendSize hext
      · cases hf
        exact .refl h
  · split at hf
    · rename_i hpunch
      dsimp only at hf
      rw [punch_of_none] at hf
      · cases hf
        exact .refl h
      · intro b hb
        rw [List.mem_range'_1] at hb
        exact hsafe hpunch b hb.1 (by omega)
    · cases hf
      exact .refl h

/-! ## Truncation -/

theorem Ext4FileSystem.Released.keeps {xs : List ℕ} (h : Released fs fs' xs) : Keeps R fs fs' :=
  ⟨h.bitmaps, fun x _ hb => h.block x hb⟩

/-- Freeing blocks does not change the tree. -/
theorem Owns.lookupExtent_released (h : Owns R fs d) (hinline : d.hasInlineData = false)
    {xs : List ℕ} (hr : Released fs fs' xs) (l : UInt32) :
    d.lookupExtent fs' l = d.lookupExtent fs l := by
  have hsize : fs'.blockSize = fs.blockSize := hr.sound.blockSize.trans h.sound.blockSize.symm
  refine (Ext4InodeDisk.tree_congr hsize fun x hx => ?_).2.2 hinline l
  exact hr.block x (h.not_bitmap (Owns.mem_nodes hx))

/-- The blocks of the extents that start at or after block `n`. -/
def Ext4InodeDisk.tailBlocks (d : Ext4InodeDisk) (fs : Ext4FileSystem) (n : UInt32) : List ℕ :=
  ((d.liveExtents fs).filter fun e => n ≤ e.logicalBlock).flatMap Ext4Extent.blocks

theorem Ext4InodeDisk.tailBlocks_sub {n : UInt32} {x : ℕ} (hx : x ∈ d.tailBlocks fs n) :
    x ∈ d.owned fs := by
  obtain ⟨e, he, hxe⟩ := List.mem_flatMap.mp hx
  exact mem_owned_of_mapped (mem_mapped (List.mem_of_mem_filter he) hxe)

/-- In the range `[n, current)` the loop of `shrink_size` meets extents of a leaf root only,
none that starts before `n`, and its block number does not wrap around. -/
def ShrinkSafe (fs : Ext4FileSystem) (d : Ext4InodeDisk) (n current : UInt32) : Prop :=
  ∀ l e, n ≤ l → l < current → d.lookupExtent fs l = some e →
    (extentHeader d.block).depth = 0 ∧ n ≤ e.logicalBlock ∧ l.toNat + e.len.toNat < 2 ^ 32

theorem Owns.shrinkLoop (h : Owns R fs d) (hinline : d.hasInlineData = false)
    {n current : UInt32} (hsafe : ShrinkSafe fs d n current) {fs₁ fs₂ : Ext4FileSystem}
    (hrel : Released fs fs₁ (d.tailBlocks fs n)) {fuel : ℕ} {l : UInt32} (hl : n ≤ l)
    (hloop : Ext4Inode.shrinkLoop d current fuel l fs₁ = some fs₂) :
    Released fs fs₂ (d.tailBlocks fs n) := by
  induction fuel generalizing l fs₁ with
  | zero => cases hloop
  | succ fuel ih =>
    unfold Ext4Inode.shrinkLoop at hloop
    split at hloop
    · rename_i hlt
      split at hloop
      · rename_i e hfind
        rw [h.lookupExtent_released hinline hrel] at hfind
        obtain ⟨-, hstart, hwrap⟩ := hsafe l e hl hlt hfind
        have hlive := (Ext4InodeDisk.lookupExtent_live hinline hfind).1
        have hsub : ∀ x ∈ e.blocks, x ∈ d.tailBlocks fs n := fun x hx =>
          List.mem_flatMap.mpr ⟨e, List.mem_filter.mpr ⟨hlive, by simpa using hstart⟩, hx⟩
        split at hloop
        · cases hloop
        · rename_i fs₃ hdealloc
          have hrel' := hrel.sound.deallocBlock (fun x hx hb => by
            rw [hrel.bitmaps] at hb
            exact h.not_bitmap (Ext4InodeDisk.tailBlocks_sub (hsub x hx)) hb) hdealloc
          refine ih (hrel.trans hrel' hsub) ?_ hloop
          rw [UInt32.le_iff_toNat_le, UInt32.toNat_add, UInt16.toNat_toUInt32] at *
          omega
      · refine ih hrel ?_ hloop
        have := current.toNat_lt
        rw [UInt32.lt_iff_toNat_lt] at hlt
        rw [UInt32.le_iff_toNat_le, UInt32.toNat_add] at *
        simp only [UInt32.toNat_one]
        omega
    · cases hloop
      exact hrel

/-- A loop that meets no extent frees nothing. -/
theorem shrinkLoop_of_none {n current : UInt32}
    (hnone : ∀ l, n ≤ l → l < current → d.lookupExtent fs l = none) {fuel : ℕ} {l : UInt32}
    (hl : n ≤ l) (hloop : Ext4Inode.shrinkLoop d current fuel l fs = some fs') : fs' = fs := by
  induction fuel generalizing l with
  | zero => cases hloop
  | succ fuel ih =>
    unfold Ext4Inode.shrinkLoop at hloop
    split at hloop
    · rename_i hlt
      rw [hnone l hl hlt] at hloop
      refine ih ?_ hloop
      have := current.toNat_lt
      rw [UInt32.lt_iff_toNat_lt] at hlt
      rw [UInt32.le_iff_toNat_le, UInt32.toNat_add] at *
      simp only [UInt32.toNat_one]
      omega
    · cases hloop
      rfl

/-- Cutting a leaf root off after the blocks past the cut were freed. -/
theorem Owns.cut (h : Owns R fs d) (hinline : d.hasInlineData = false)
    (hdepth : (extentHeader d.block).depth = 0) {n size : ℕ}
    (hrel : Released fs fs' (d.tailBlocks fs (UInt32.ofNat n))) :
    Owns R fs' { d with size := size, block := truncateExtents d.block n } := by
  set d' : Ext4InodeDisk := { d with size := size, block := truncateExtents d.block n }
  have hinline' : d'.hasInlineData = false := hinline
  have hdepth' : (extentHeader d'.block).depth = 0 := by
    rw [depth_truncateExtents, hdepth]
  obtain ⟨k, hk, hext, hbefore⟩ := extents_truncateExtents hdepth n
  have hlive : d.liveExtents fs = extents d.block := Ext4InodeDisk.liveExtents_leaf hinline hdepth
  have howned : d.owned fs = (extents d.block).flatMap Ext4Extent.blocks :=
    Ext4InodeDisk.owned_leaf hinline hdepth
  have howned' : d'.owned fs' = ((extents d.block).take k).flatMap Ext4Extent.blocks := by
    rw [Ext4InodeDisk.owned_leaf hinline' hdepth']
    exact congrArg _ hext
  have hsplit : d.owned fs = ((extents d.block).take k).flatMap Ext4Extent.blocks ++
      ((extents d.block).drop k).flatMap Ext4Extent.blocks := by
    rw [howned, ← List.flatMap_append, List.take_append_drop]
  have hnodup := h.nodup
  rw [hsplit, List.nodup_append'] at hnodup
  have hsub : ∀ x ∈ d'.owned fs', x ∈ d.owned fs ∧ x ∉ d.tailBlocks fs (UInt32.ofNat n) := by
    intro x hx
    rw [howned'] at hx
    refine ⟨hsplit ▸ List.mem_append_left _ hx, fun htail => ?_⟩
    obtain ⟨e, he, hxe⟩ := List.mem_flatMap.mp htail
    obtain ⟨he, hge⟩ := List.mem_filter.mp he
    rw [hlive, ← List.take_append_drop k (extents d.block)] at he
    rcases List.mem_append.mp he with he | he
    · have hlt := (hbefore e he).2
      rw [UInt32.lt_iff_toNat_lt] at hlt
      have hge' : UInt32.ofNat n ≤ e.logicalBlock := by simpa using hge
      rw [UInt32.le_iff_toNat_le] at hge'
      omega
    · exact hnodup.2.2 hx (List.mem_flatMap.mpr ⟨e, he, hxe⟩)
  have hfits := h.ordered.root hinline hdepth
  refine ⟨hrel.sound, hrel.bitmaps ▸ h.bitmaps, fun x hx => ?_,
    ⟨h.ordered.flags, fun h0 => absurd h0 (by simp [hinline']), fun _ _ => ?_, ?_⟩, ?_, ?_, ?_⟩
  · rw [hrel.used x fun htail => h.apart x (Ext4InodeDisk.tailBlocks_sub htail) hx]
    exact h.rest x hx
  · have hmax : (extentHeader d'.block).max = (extentHeader d.block).max :=
      max_truncateExtents d.block n
    have hentries := congrArg List.length hext
    rw [length_extents, List.length_take, length_extents] at hentries
    have : (extentHeader d'.block).entries.toNat = min k (extentHeader d.block).entries.toNat :=
      hentries
    rw [hmax]
    omega
  · rw [Ext4InodeDisk.liveExtents_leaf hinline' hdepth']
    intro e he
    have he' : e ∈ (extents d.block).take k := hext ▸ he
    exact h.ordered.len e (hlive ▸ List.mem_of_mem_take he')
  · rw [howned']
    exact hnodup.1
  · exact fun x hx => h.apart x (hsub x hx).1
  · intro x hx
    rw [hrel.used x (hsub x hx).2]
    exact h.used x (hsub x hx).1

/-- A shrink that frees no block that stays mapped: in the tree with the file's last, partial
page fetched, every extent the loop meets can go as a whole. -/
def TruncateSafe (fs : Ext4FileSystem) (ino : Ext4Inode) (newSize : ℕ) : Prop :=
  newSize < ino.getSize → ino.inodeOnDisk.hasInlineData = false →
    ∀ ino₁ fs₁, ino.clearLastPage fs newSize = some (ino₁, fs₁) →
      ShrinkSafe fs₁ ino₁.inodeOnDisk (UInt32.ofNat (Ext4Inode.blockCount newSize fs.blockSize))
        (UInt32.ofNat (Ext4Inode.blockCount ino.getSize fs.blockSize))

theorem Owns.clearLastPage (h : Owns R fs ino.inodeOnDisk) {n : ℕ}
    (hc : ino.clearLastPage fs n = some (ino', fs')) :
    Owns.Step R fs fs' ino'.inodeOnDisk ∧
      ino'.inodeOnDisk.inlineDataFl = ino.inodeOnDisk.inlineDataFl ∧
      ino'.inodeOnDisk.size = ino.inodeOnDisk.size := by
  unfold Ext4Inode.clearLastPage at hc
  split at hc
  · cases hc
    exact ⟨.refl h, rfl, rfl⟩
  · split at hc
    · cases hc
    · rename_i p ino₁ fs₁ hget
      cases hc
      have hstep := h.getPageCache hget
      exact hstep
    · rename_i ino₁ fs₁ hget
      cases hc
      exact h.getPageCache hget

theorem Owns.shrinkSize (h : Owns R fs ino.inodeOnDisk) {n : ℕ} (hn : n < ino.getSize)
    (hsafe : TruncateSafe fs ino n) (hs : ino.shrinkSize fs n = some (ino', fs')) :
    Owns.Step R fs fs' ino'.inodeOnDisk := by
  unfold Ext4Inode.shrinkSize at hs
  split at hs
  · rename_i hinline
    cases hs
    refine ⟨⟨h.sound, h.bitmaps, h.rest, ⟨h.ordered.flags, fun _ => ?_, fun h0 => ?_, ?_⟩,
      ?_, ?_, ?_⟩, Keeps.refl R fs⟩
    · exact hn.le.trans (h.ordered.inlineSize hinline)
    · exact absurd (h0.symm.trans hinline) (by decide)
    all_goals
      simp [Ext4InodeDisk.liveExtents, Ext4InodeDisk.owned, Ext4InodeDisk.mapped,
        Ext4InodeDisk.nodes, Ext4InodeDisk.hasInlineData,
        show ino.inodeOnDisk.inlineDataFl = true from hinline]
  · rename_i hinline
    rw [Bool.not_eq_true] at hinline
    simp only [Option.bind_eq_bind, Option.bind_eq_some_iff, Option.pure_def, Option.some.injEq,
      Prod.mk.injEq, Prod.exists] at hs
    obtain ⟨ino₁, fs₁, hclear, fs₂, hloop, rfl, rfl⟩ := hs
    obtain ⟨hstep, hin, -⟩ := h.clearLastPage hclear
    have hinline₁ : ino₁.inodeOnDisk.hasInlineData = false := hin.trans hinline
    have hsafe₁ := hsafe hn hinline ino₁ fs₁ hclear
    refine hstep.trans ?_
    by_cases hdepth : (extentHeader ino₁.inodeOnDisk.block).depth = 0
    · have hrel := hstep.owns.shrinkLoop hinline₁ hsafe₁
        (Ext4FileSystem.Released.refl hstep.owns.sound _) (UInt32.le_refl _) hloop
      exact ⟨hstep.owns.cut hinline₁ hdepth hrel, hrel.keeps⟩
    · have hfs : fs₂ = fs₁ := by
        refine shrinkLoop_of_none (fun l hl hlt => ?_) (UInt32.le_refl _) hloop
        rw [Option.eq_none_iff_forall_not_mem]
        intro e he
        exact hdepth (hsafe₁ l e hl hlt he).1
      subst hfs
      have hroot : truncateExtents ino₁.inodeOnDisk.block
          (Ext4Inode.blockCount n fs.blockSize) = ino₁.inodeOnDisk.block := by
        have hpos : 0 < (extentHeader ino₁.inodeOnDisk.block).depth := by
          rw [UInt16.lt_iff_toNat_lt]
          rw [← UInt16.toNat_inj] at hdepth
          simp only [UInt16.toNat_zero] at hdepth ⊢
          omega
        rw [truncateExtents, if_pos hpos]
      refine ⟨?_, Keeps.refl R _⟩
      have := hstep.owns.setSize (n := n) fun h0 => absurd (h0.symm.trans hinline₁) (by decide)
      simpa only [Ext4Inode.removePages, hroot] using this

/-- **Truncation keeps ownership**, unless it frees a block that stays mapped. -/
theorem Owns.truncate (h : Owns R fs ino.inodeOnDisk) {n : ℕ} (hsafe : TruncateSafe fs ino n)
    {r : Except Errno ℕ} (ht : ino.truncate fs n = some (r, ino', fs')) :
    Owns.Step R fs fs' ino'.inodeOnDisk := by
  unfold Ext4Inode.truncate at ht
  split at ht
  · cases ht
    exact .refl h
  split at ht
  · rename_i hlt
    split at ht
    · cases ht
      exact .refl h
    · obtain ⟨⟨ino₁, fs₁⟩, hshrink, heq⟩ := Option.map_eq_some_iff.mp ht
      cases heq
      exact h.shrinkSize hlt hsafe hshrink
  split at ht
  · cases ht
    exact .refl h
  · cases ht
    refine ⟨?_, Keeps.refl R fs⟩
    dsimp only [Ext4Inode.setSize]
    split
    · exact h.initRoot.setSize fun h0 => by cases h0
    · rename_i hinline
      exact h.setSize fun h0 => absurd h0 hinline

/-! ## Leaving memory -/

/-- The inode table does not bear on ownership. -/
theorem Owns.inodeTable (h : Owns R fs d) (t : ℕ → Ext4InodeDisk) :
    Owns R { fs with inodeTable := t } d := by
  refine h.of_congr ⟨h.sound.1, h.sound.2, h.sound.3, h.sound.4, h.sound.5, h.sound.6⟩ rfl
    (fun _ _ => rfl) (fun x hx => ?_) (fun x hx => ?_)
  · exact h.rest x hx
  · exact h.used x hx

theorem Owns.flushPage (h : Owns R fs d) (hinline : d.hasInlineData = false) (i : ℕ) (p : Page) :
    Owns.Step R fs (Ext4Inode.flushPage d fs i p) d := by
  unfold Ext4Inode.flushPage
  dsimp only
  split
  · rename_i e hfind
    split
    · obtain ⟨hlive, hcov⟩ := Ext4InodeDisk.lookupExtent_live hinline hfind
      have hmapped := Ext4InodeDisk.mem_mapped hlive (Ext4Extent.fsBlockIdOf_mem hcov)
      have hnode : fsBlockIdOf e (logicalBlockOf fs i) ∉ d.nodes fs := fun hnode =>
        (List.nodup_append'.mp h.nodup).2.2 hmapped hnode
      obtain ⟨h₁, hkeeps⟩ := h.writeBytes
        (h.apart _ (Ext4InodeDisk.mem_owned_of_mapped hmapped)) hnode p.data
        (n := min (d.size - i * pageSize) pageSize) (min_le_right _ _)
      exact ⟨h₁, hkeeps⟩
    · exact .refl h
  · exact .refl h

theorem Owns.flush (h : Owns R fs d) (hinline : d.hasInlineData = false)
    (ps : List (ℕ × Page)) :
    Owns.Step R fs (ps.foldl (fun fs (i, p) => Ext4Inode.flushPage d fs i p) fs) d := by
  induction ps generalizing fs with
  | nil => exact .refl h
  | cons ip ps ih =>
    obtain ⟨i, p⟩ := ip
    have hstep := h.flushPage hinline i p
    exact hstep.trans (ih hstep.owns)

/-- Freeing extents of the file leaves the rest alone. -/
theorem Owns.release (h : Owns R fs d)
    {es : List Ext4Extent} (hes : ∀ e ∈ es, e ∈ d.liveExtents fs) {fs₁ : Ext4FileSystem}
    (hrel : Released fs fs₁ (d.mapped fs))
    (hfold : es.foldlM (fun fs e => fs.deallocBlock e.physicalStartBlock e.len.toNat) fs₁ =
      some fs') : Released fs fs' (d.mapped fs) := by
  induction es generalizing fs₁ with
  | nil =>
    cases hfold
    exact hrel
  | cons e es ih =>
    rw [List.foldlM_cons] at hfold
    obtain ⟨fs₂, hdealloc, hrest⟩ := Option.bind_eq_some_iff.mp hfold
    have hsub : ∀ x ∈ e.blocks, x ∈ d.mapped fs := fun x hx =>
      Ext4InodeDisk.mem_mapped (hes e (List.mem_cons_self ..)) hx
    have hrel' := hrel.sound.deallocBlock (fun x hx hb => by
      rw [hrel.bitmaps] at hb
      exact h.not_bitmap (Ext4InodeDisk.mem_owned_of_mapped (hsub x hx)) hb) hdealloc
    exact ih (fun e' he' => hes e' (List.mem_cons_of_mem _ he')) (hrel.trans hrel' hsub) hrest

namespace Ext4Inode

/-- The record `Drop` writes to the inode table: the first page of an inline file goes back
into `i_block`. -/
def droppedDisk (ino : Ext4Inode) : Ext4InodeDisk :=
  if ino.inodeOnDisk.hasInlineData then
    match ino.pages[0]? with
    | some p => { ino.inodeOnDisk with
        block := fun i => if i < 60 then p.data i else ino.inodeOnDisk.block i }
    | none => ino.inodeOnDisk
  else ino.inodeOnDisk

/-- The file system `Drop` leaves before it looks at the links. -/
def flushed (ino : Ext4Inode) (fs : Ext4FileSystem) : Ext4FileSystem :=
  let d := ino.droppedDisk
  let fs₁ :=
    if !d.hasInlineData && d.useExtentTree then
      ino.dirtyPages.foldl (fun fs (i, p) => flushPage d fs i p) fs
    else fs
  { fs₁ with inodeTable := Function.update fs₁.inodeTable ino.inodeNum d }

theorem drop_eq (ino : Ext4Inode) (fs : Ext4FileSystem) :
    ino.drop fs =
      if ino.droppedDisk.linksCount = 0 then
        if ino.droppedDisk.useExtentTree then
          (ino.droppedDisk.iterAllExtents (ino.flushed fs)).foldlM
            (fun fs e => fs.deallocBlock e.physicalStartBlock e.len.toNat) (ino.flushed fs)
        else some (ino.flushed fs)
      else some (ino.flushed fs) := rfl

theorem droppedDisk_fields (ino : Ext4Inode) :
    ino.droppedDisk.inlineDataFl = ino.inodeOnDisk.inlineDataFl ∧
      ino.droppedDisk.extentsFl = ino.inodeOnDisk.extentsFl ∧
      ino.droppedDisk.size = ino.inodeOnDisk.size ∧
      ino.droppedDisk.linksCount = ino.inodeOnDisk.linksCount ∧
      (ino.inodeOnDisk.hasInlineData = false → ino.droppedDisk = ino.inodeOnDisk) := by
  unfold droppedDisk
  by_cases hin : ino.inodeOnDisk.hasInlineData = true
  · rw [if_pos hin]
    split
    · exact ⟨rfl, rfl, rfl, rfl, fun h0 => absurd (h0.symm.trans hin) (by decide)⟩
    · exact ⟨rfl, rfl, rfl, rfl, fun _ => rfl⟩
  · rw [if_neg hin]
    exact ⟨rfl, rfl, rfl, rfl, fun _ => rfl⟩

end Ext4Inode

/-- An inline file owns nothing, whatever its 60 bytes are. -/
theorem Owns.inline (h : Owns R fs d) (hinline : d.hasInlineData = true) (b : Buffer) :
    Owns R fs { d with block := b } := by
  have hin : d.inlineDataFl = true := hinline
  refine ⟨h.sound, h.bitmaps, h.rest, ⟨h.ordered.flags, h.ordered.inlineSize, fun h0 => ?_, ?_⟩,
    ?_, ?_, ?_⟩
  · exact absurd (h0.symm.trans hinline) (by decide)
  all_goals
    simp [Ext4InodeDisk.liveExtents, Ext4InodeDisk.owned, Ext4InodeDisk.mapped,
      Ext4InodeDisk.nodes, Ext4InodeDisk.hasInlineData, hin]

theorem Owns.droppedDisk (h : Owns R fs ino.inodeOnDisk) : Owns R fs ino.droppedDisk := by
  unfold Ext4Inode.droppedDisk
  split
  · rename_i hinline
    split
    · exact h.inline hinline _
    · exact h
  · exact h

theorem Owns.flushed (h : Owns R fs ino.inodeOnDisk) :
    Owns.Step R fs (ino.flushed fs) ino.droppedDisk := by
  unfold Ext4Inode.flushed
  dsimp only
  split
  · rename_i hflags
    have hinline : ino.droppedDisk.hasInlineData = false := by simp_all
    have hstep := h.droppedDisk.flush hinline ino.dirtyPages
    exact ⟨hstep.owns.inodeTable _, hstep.keeps.bitmaps, hstep.keeps.block⟩
  · exact ⟨h.droppedDisk.inodeTable _, rfl, fun _ _ _ => rfl⟩

/-- **Dropping an inode** with links leaves it owning its blocks. -/
theorem Owns.drop (h : Owns R fs ino.inodeOnDisk) (hlinks : ino.inodeOnDisk.linksCount ≠ 0)
    (hd : ino.drop fs = some fs') :
    Owns.Step R fs fs' (Ext4Inode.loadInode fs' ino.inodeNum).inodeOnDisk := by
  rw [Ext4Inode.drop_eq, if_neg (by rwa [ino.droppedDisk_fields.2.2.2.1])] at hd
  cases hd
  have hload : (Ext4Inode.loadInode (ino.flushed fs) ino.inodeNum).inodeOnDisk =
      ino.droppedDisk := by
    simp [Ext4Inode.loadInode, Ext4Inode.flushed]
  rw [hload]
  exact h.flushed

/-- **Dropping an inode** without links frees blocks of its own only. -/
theorem Owns.drop_unlinked (h : Owns R fs ino.inodeOnDisk)
    (hlinks : ino.inodeOnDisk.linksCount = 0) (hd : ino.drop fs = some fs') :
    fs'.Sound ∧ Keeps R fs fs' ∧ ∀ x ∈ R, fs'.used x = true := by
  have hstep := h.flushed
  rw [Ext4Inode.drop_eq, if_pos (by rwa [ino.droppedDisk_fields.2.2.2.1])] at hd
  split at hd
  · rename_i hext
    have hinline : ino.droppedDisk.hasInlineData = false := hstep.owns.ordered.flags hext
    have hrel := hstep.owns.release (fun e he => by
      rw [Ext4InodeDisk.liveExtents, hinline]
      exact he) (Released.refl hstep.owns.sound _) hd
    refine ⟨hrel.sound, hstep.keeps.trans hrel.keeps, fun x hx => ?_⟩
    rw [hrel.used x fun hmap =>
      hstep.owns.apart x (Ext4InodeDisk.mem_owned_of_mapped hmap) hx]
    exact hstep.owns.rest x hx
  · cases hd
    exact ⟨hstep.owns.sound, hstep.keeps, hstep.owns.rest⟩

end QuackOS.Ext4
