import QuackOS.Ext4.FileResizes

/-!
# Write-back

`Drop for Ext4Inode` writes the dirty pages to the blocks the tree maps and the record to the
inode table; `load_inode` makes an inode with an empty cache of what is there.  A file comes back
with the contents it had, if no page with bytes of the file is without a block.

* `physicalAt_inj` — no two pages of a file share a block;
* `flush_disk` — what the device has after the dirty pages were written;
* `Flushable`, `drop_holds` — the file that is loaded again holds the same bytes.
-/

namespace QuackOS.Ext4

open Buffer Ext4ExtentBlock

variable {R : Set ℕ} {d : Ext4InodeDisk} {fs fs' : Ext4FileSystem}

/-! ## One page -/

/-- Two pages of a file are on two blocks. -/
theorem Ext4InodeDisk.physicalAt_inj (ho : Owns R fs d) (hinline : d.hasInlineData = false)
    {k m : UInt32} {x : ℕ} (hk : d.physicalAt fs k = some x) (hm : d.physicalAt fs m = some x) :
    k = m := by
  obtain ⟨e, he, hex⟩ := physicalAt_eq_some.mp hk
  obtain ⟨e', he', hex'⟩ := physicalAt_eq_some.mp hm
  obtain ⟨hlive, hcov⟩ := lookupExtent_live hinline he
  obtain ⟨hlive', hcov'⟩ := lookupExtent_live hinline he'
  have hmem := Ext4Extent.fsBlockIdOf_mem hcov
  have hmem' := Ext4Extent.fsBlockIdOf_mem hcov'
  rw [hex] at hmem
  rw [hex'] at hmem'
  have hee : e = e' :=
    World.eq_of_nodup_flatMap (List.nodup_append'.mp ho.nodup).1 hlive hlive' hmem hmem'
  subst hee
  have hb := Ext4Extent.covers_bounds hcov
  have hb' := Ext4Extent.covers_bounds hcov'
  rw [← UInt32.toNat_inj]
  unfold fsBlockIdOf at hex hex'
  omega

namespace Ext4Inode

/-- The tree does not see that a page was written. -/
theorem flushPage_lookup (ho : Owns R fs d) (hinline : d.hasInlineData = false) (i : ℕ) (p : Page)
    (l : UInt32) : d.lookupExtent (flushPage d fs i p) l = d.lookupExtent fs l := by
  unfold flushPage
  dsimp only
  split
  · rename_i e hfind
    split
    · have hmapped := Ext4InodeDisk.physicalAt_mapped hinline
        (Ext4InodeDisk.physicalAt_eq_some.mpr ⟨e, hfind, rfl⟩)
      set fs₁ := fs.writeBytes (fsBlockIdOf e (logicalBlockOf fs i)) p.data
        (min (d.size - i * pageSize) pageSize) with hfs₁
      have hsize : fs₁.blockSize = fs.blockSize := rfl
      have hnodes : ∀ x ∈ d.nodes fs, fs₁.block x = fs.block x := by
        intro x hx
        refine Ext4FileSystem.block_writeBytes_of_ne ho.sound.blockSize ?_ _ (min_le_right _ _)
        rintro rfl
        exact (List.nodup_append'.mp ho.nodup).2.2 hmapped hx
      exact (Ext4InodeDisk.tree_congr hsize hnodes).2.2 hinline l
    · rfl
  · rfl

/-- The pages on the device after one was written: the bytes of the file are on it, and the other
pages are as before. -/
theorem flushPage_disk (ho : Owns R fs d) (hinline : d.hasInlineData = false)
    (hsize : d.size < 2 ^ 32) (i : ℕ) (p : Page) {m j : ℕ} (hm : m < 2 ^ 32) (hj : j < pageSize) :
    d.diskPage (flushPage d fs i p) m j =
      if m = i ∧ d.lookupExtent fs (UInt32.ofNat i) ≠ none ∧ i * pageSize + j < d.size then p.data j
      else d.diskPage fs m j := by
  have hlookup := flushPage_lookup ho hinline i p
  have hphys : d.physicalAt (flushPage d fs i p) (UInt32.ofNat m) =
      d.physicalAt fs (UInt32.ofNat m) := by
    rw [Ext4InodeDisk.physicalAt, hlookup, Ext4InodeDisk.physicalAt]
  -- no block was written when the page is behind the end, or has no block
  have hsame : flushPage d fs i p = fs → ¬ (m = i ∧ d.lookupExtent fs (UInt32.ofNat i) ≠ none ∧
      i * pageSize + j < d.size) → d.diskPage (flushPage d fs i p) m j =
      if m = i ∧ d.lookupExtent fs (UInt32.ofNat i) ≠ none ∧ i * pageSize + j < d.size then p.data j
      else d.diskPage fs m j := by
    intro heq hnot
    rw [heq, if_neg hnot]
  have hl : logicalBlockOf fs i = UInt32.ofNat i := logicalBlockOf_eq ho.sound.blockSize i
  by_cases hfind : d.lookupExtent fs (UInt32.ofNat i) = none
  · refine hsame ?_ fun h => h.2.1 hfind
    simp only [flushPage, hl, hfind]
  obtain ⟨e, he⟩ := Option.ne_none_iff_exists'.mp hfind
  by_cases hend : d.size ≤ i * pageSize
  · refine hsame ?_ (by omega)
    simp only [flushPage, hl, he]
    rw [if_neg (by omega)]
  have hi : i < 2 ^ 32 := by
    unfold pageSize at hend
    omega
  have hflush : flushPage d fs i p = fs.writeBytes (fsBlockIdOf e (UInt32.ofNat i)) p.data
      (min (d.size - i * pageSize) pageSize) := by
    simp only [flushPage, hl, he]
    rw [if_pos (by unfold pageSize at *; omega)]
  have hbs := ho.sound.blockSize
  have hlen : min (d.size - i * pageSize) pageSize ≤ 4096 := min_le_right _ _
  have hx : d.physicalAt fs (UInt32.ofNat i) = some (fsBlockIdOf e (UInt32.ofNat i)) :=
    Ext4InodeDisk.physicalAt_eq_some.mpr ⟨e, he, rfl⟩
  by_cases hmi : m = i
  · subst hmi
    rw [Ext4InodeDisk.diskPage_of_physicalAt hinline (hphys.trans hx),
      Ext4InodeDisk.diskPage_of_physicalAt hinline hx, hflush,
      Ext4FileSystem.block_writeBytes_self hbs _ _ hlen]
    dsimp only
    by_cases hin : m * pageSize + j < d.size
    · rw [if_pos (lt_min (by omega) hj), if_pos ⟨rfl, hfind, hin⟩]
    · rw [if_neg (by omega), if_neg (fun h => hin h.2.2)]
  · rw [if_neg (fun h => hmi h.1)]
    cases hy : d.physicalAt fs (UInt32.ofNat m) with
    | none =>
      rw [Ext4InodeDisk.diskPage_of_none hinline (Ext4InodeDisk.physicalAt_eq_none.mp hy),
        Ext4InodeDisk.diskPage_of_none hinline
          (Ext4InodeDisk.physicalAt_eq_none.mp (hphys.trans hy))]
    | some y =>
      rw [Ext4InodeDisk.diskPage_of_physicalAt hinline (hphys.trans hy),
        Ext4InodeDisk.diskPage_of_physicalAt hinline hy, hflush,
        Ext4FileSystem.block_writeBytes_of_ne hbs ?_ _ hlen]
      rintro rfl
      have := congrArg UInt32.toNat (Ext4InodeDisk.physicalAt_inj ho hinline hy hx)
      rw [UInt32.toNat_ofNat_of_lt' hm, UInt32.toNat_ofNat_of_lt' hi] at this
      exact hmi this

/-! ## All of them -/

/-- **The device after write-back**: a page that was written and has a block is what it was in the
cache, as far as the file goes, and everything else in the file is as before. -/
theorem flush_disk (ho : Owns R fs d) (hinline : d.hasInlineData = false)
    (hsize : d.size < 2 ^ 32) {ps : List (ℕ × Page)} (hnodup : (ps.map Prod.fst).Nodup)
    {m j : ℕ} (hm : m < 2 ^ 32) (hj : j < pageSize) :
    (∀ p, (m, p) ∈ ps → d.lookupExtent fs (UInt32.ofNat m) ≠ none → m * pageSize + j < d.size →
      d.diskPage (ps.foldl (fun fs (i, p) => flushPage d fs i p) fs) m j = p.data j) ∧
    ((∀ p, (m, p) ∉ ps) ∨ d.size ≤ m * pageSize + j →
      d.diskPage (ps.foldl (fun fs (i, p) => flushPage d fs i p) fs) m j = d.diskPage fs m j) := by
  induction ps generalizing fs with
  | nil => exact ⟨fun p hp => absurd hp (by simp), fun _ => rfl⟩
  | cons ip ps ih =>
    obtain ⟨i, p⟩ := ip
    obtain ⟨hi, hrest⟩ := List.nodup_cons.mp hnodup
    obtain ⟨hin, hout⟩ := ih (ho.flushPage hinline i p).owns hrest
    have hpage := flushPage_disk ho hinline hsize i p hm hj
    have hnot : ∀ q, (i, q) ∉ ps := fun q hq => hi (List.mem_map.mpr ⟨(i, q), hq, rfl⟩)
    rw [List.foldl_cons]
    refine ⟨fun q hq hmapped hlt => ?_, fun hother => ?_⟩
    · rcases List.mem_cons.mp hq with heq | hq
      · cases heq
        rw [hout (Or.inl hnot), hpage, if_pos ⟨rfl, hmapped, hlt⟩]
      · exact hin q hq (by rwa [flushPage_lookup ho hinline]) hlt
    · rcases hother with hfree | hend
      · have hne : m ≠ i := fun h => hfree p (by rw [h]; exact List.mem_cons_self ..)
        rw [hout (Or.inl fun q hq => hfree q (List.mem_cons_of_mem _ hq)), hpage,
          if_neg (fun h => hne h.1)]
      · rw [hout (Or.inr hend), hpage, if_neg]
        rintro ⟨rfl, -, hlt⟩
        omega

variable {ino : Ext4Inode} {l : List (BitVec 8)}

theorem mem_dirtyPages {i : ℕ} {p : Page} :
    (i, p) ∈ ino.dirtyPages ↔ ino.pages[i]? = some p ∧ p.dirty = true := by
  rw [dirtyPages, List.mem_filter, Std.TreeMap.mem_toList_iff_getElem?_eq_some]

theorem nodup_dirtyPages (ino : Ext4Inode) : (ino.dirtyPages.map Prod.fst).Nodup := by
  refine List.Nodup.sublist ((List.filter_sublist).map Prod.fst) ?_
  rw [List.nodup_iff_pairwise_ne, List.pairwise_map]
  refine List.Pairwise.imp (fun {a b} h heq => h ?_) Std.TreeMap.distinct_keys_toList
  simp [heq]

/-- Every dirty page with bytes of the file has a block. -/
def Flushable (fs : Ext4FileSystem) (ino : Ext4Inode) : Prop :=
  ino.inodeOnDisk.hasInlineData = false → ∀ x ∈ ino.dirtyPages, x.1 * pageSize < ino.getSize →
    (ino.inodeOnDisk.lookupExtent fs (UInt32.ofNat x.1)).isSome = true

instance (fs : Ext4FileSystem) (ino : Ext4Inode) : Decidable (Flushable fs ino) :=
  inferInstanceAs (Decidable (_ → _))

/-- What the device has of the file when it left memory is what the cache had. -/
theorem flushed_disk (ho : Owns R fs ino.inodeOnDisk) (hl : ino.Holds fs l)
    (hflush : Flushable fs ino) {i j : ℕ} (hi : i < 2 ^ 32) (hj : j < pageSize) :
    ino.droppedDisk.diskPage (ino.flushed fs) i j = ino.pageAt fs i j := by
  by_cases hinline : ino.inodeOnDisk.hasInlineData = true
  · -- the page of an inline file goes back into `i_block`
    have hle : ino.getSize ≤ 60 := ho.ordered.inlineSize hinline
    have hflag : ino.droppedDisk.hasInlineData = true :=
      ino.droppedDisk_fields.1.trans hinline
    rw [Ext4InodeDisk.diskPage, if_pos hflag]
    by_cases hi0 : i = 0
    · subst hi0
      rw [if_pos rfl]
      simp only [newInlinePageCache]
      by_cases hj60 : j < 60
      · rw [if_pos hj60, pageAt, droppedDisk, if_pos hinline]
        cases hp : ino.pages[0]? with
        | none =>
          rw [← diskPage_inline hinline]
          exact (if_pos hj60).symm
        | some p => exact if_pos hj60
      · rw [if_neg hj60, (hl.zero 0 hi j hj (by omega)).1]
    · rw [if_neg hi0]
      exact (hl.zero i hi j hj (by unfold pageSize; omega)).1.symm
  · have hinline : ino.inodeOnDisk.hasInlineData = false := by simpa using hinline
    have hdisk : ino.droppedDisk = ino.inodeOnDisk := by rw [droppedDisk, hinline]; rfl
    have htree : ino.inodeOnDisk.useExtentTree = true := by
      have hfl := hl.sane.flags
      rw [show ino.inodeOnDisk.inlineDataFl = false from hinline] at hfl
      exact hfl
    have hfold : (ino.inodeOnDisk.diskPage (ino.flushed fs) i j) = ino.inodeOnDisk.diskPage
        (ino.dirtyPages.foldl (fun fs (i, p) => flushPage ino.inodeOnDisk fs i p) fs) i j := by
      rw [flushed, hdisk, hinline, htree]
      rfl
    obtain ⟨hin, hout⟩ := flush_disk ho hinline hl.sane.size ino.nodup_dirtyPages hi hj
    rw [hdisk, hfold]
    by_cases hend : ino.getSize ≤ i * pageSize + j
    · obtain ⟨hpage, hzero⟩ := hl.zero i hi j hj hend
      rw [hout (Or.inr hend), hzero, hpage]
    cases hp : ino.pages[i]? with
    | none =>
      rw [hout (Or.inl fun q hq => ?_), pageAt, hp]
      rw [mem_dirtyPages, hp] at hq
      cases hq.1
    | some p =>
      rw [pageAt, hp]
      dsimp only
      by_cases hdirty : p.dirty = true
      · have hmem := mem_dirtyPages.mpr ⟨hp, hdirty⟩
        have hmapped := hflush hinline (i, p) hmem (by dsimp only; omega)
        exact hin p hmem (by simpa [Option.isSome_iff_ne_none] using hmapped) (by
          show i * pageSize + j < ino.getSize
          omega)
      · have hclean : p.dirty = false := by simpa using hdirty
        rw [hout (Or.inl fun q hq => ?_)]
        · exact (hl.sane.clean i hi p hp hclean j hj).symm
        · rw [mem_dirtyPages, hp] at hq
          cases hq.1
          rw [hclean] at hq
          cases hq.2

/-- **Write-back.**  A file that leaves memory and is loaded again holds the bytes it held. -/
theorem drop_holds (ho : Owns R fs ino.inodeOnDisk) (hl : ino.Holds fs l)
    (hflush : Flushable fs ino) (hlinks : ino.inodeOnDisk.linksCount ≠ 0)
    (h : ino.drop fs = some fs') :
    (loadInode fs' ino.inodeNum).Holds fs' l ∧
      (loadInode fs' ino.inodeNum).inodeOnDisk.linksCount = ino.inodeOnDisk.linksCount := by
  have hfields := ino.droppedDisk_fields
  rw [drop_eq, if_neg (by rwa [hfields.2.2.2.1])] at h
  cases h
  have hrecord : (loadInode (ino.flushed fs) ino.inodeNum).inodeOnDisk = ino.droppedDisk := by
    show (ino.flushed fs).inodeTable ino.inodeNum = ino.droppedDisk
    unfold flushed
    exact Function.update_self ..
  have hsize : (loadInode (ino.flushed fs) ino.inodeNum).getSize = ino.getSize := by
    rw [getSize, hrecord]
    exact hfields.2.2.1
  have hempty : ∀ i : ℕ, (loadInode (ino.flushed fs) ino.inodeNum).pages[i]? = none := fun i => by
    simp [loadInode]
  have hat : ∀ i, (loadInode (ino.flushed fs) ino.inodeNum).pageAt (ino.flushed fs) i =
      ino.droppedDisk.diskPage (ino.flushed fs) i := fun i => by
    rw [pageAt, hempty, hrecord]
  refine ⟨⟨⟨?_, ?_, ?_, ?_, ?_⟩, ?_, ?_⟩, ?_⟩
  · exact ⟨by simp [loadInode], by simp [loadInode]⟩
  · rw [hsize]
    exact hl.sane.size
  · rw [hrecord, hfields.1, hfields.2.1]
    exact hl.sane.flags
  · intro hinline
    rw [hrecord] at hinline ⊢
    have hinline₀ : ino.inodeOnDisk.hasInlineData = false := hfields.1.symm.trans hinline
    have hdisk : ino.droppedDisk = ino.inodeOnDisk := by rw [droppedDisk, hinline₀]; rfl
    have hlookup : ∀ m, ino.inodeOnDisk.lookupExtent (ino.flushed fs) m =
        ino.inodeOnDisk.lookupExtent fs m := by
      have hfold : ∀ (ps : List (ℕ × Page)) (fs₀ : Ext4FileSystem), Owns R fs₀ ino.inodeOnDisk →
          ∀ m, ino.inodeOnDisk.lookupExtent
            (ps.foldl (fun fs (i, p) => flushPage ino.inodeOnDisk fs i p) fs₀) m =
            ino.inodeOnDisk.lookupExtent fs₀ m := by
        intro ps
        induction ps with
        | nil => exact fun _ _ _ => rfl
        | cons ip ps ih =>
          intro fs₀ ho₀ m
          rw [List.foldl_cons, ih _ (ho₀.flushPage hinline₀ _ _).owns,
            flushPage_lookup ho₀ hinline₀]
      intro m
      have htree : ino.inodeOnDisk.useExtentTree = true := by
        have hfl := hl.sane.flags
        rw [show ino.inodeOnDisk.inlineDataFl = false from hinline₀] at hfl
        exact hfl
      rw [flushed, hdisk, hinline₀, htree]
      exact hfold ino.dirtyPages fs ho m
    rw [hdisk]
    exact ⟨(hl.sane.tree hinline₀).leaf, fun {k m e} hk hcov => by
      rw [hlookup] at hk ⊢
      exact (hl.sane.tree hinline₀).steady hk hcov⟩
  · intro i _ p hp
    rw [hempty] at hp
    cases hp
  · intro i hi j hj hn
    rw [hsize] at hn
    rw [hat, hrecord, flushed_disk ho hl hflush hi hj]
    exact ⟨(hl.zero i hi j hj hn).1, (hl.zero i hi j hj hn).1⟩
  · rw [← hl.contents, fileBytes, fileBytes, hsize]
    refine List.map_congr_left fun k hk => ?_
    rw [List.mem_range] at hk
    rw [byteAt, hat]
    exact flushed_disk ho hl hflush
      (lt_of_le_of_lt (Nat.div_le_self _ _) (hk.trans hl.sane.size)) (Nat.mod_lt _ (by decide))
  · rw [hrecord]
    exact hfields.2.2.2.1

end Ext4Inode

end QuackOS.Ext4
