import QuackOS.Lib.Contents
import QuackOS.Ext4.DirFiles
import QuackOS.Ext4.ExtentMap
import QuackOS.Ext4.Ownership

/-!
# The contents of a file

The bytes of a file are in its cached pages, under these in the blocks its extent tree maps, and
zeros where nothing is mapped.

* `Ext4InodeDisk.diskPage`, `Ext4Inode.pageAt`, `Ext4Inode.fileBytes` — where a page is looked for;
* `Ext4InodeDisk.TreeOk`, `Ext4Inode.Sane`, `Ext4Inode.ZeroFrom` — what the operations rely on: a
  tree whose lookups agree with each other, clean pages that are what the device has, zeros behind
  the end;
* `lookupOrCreateExtent_contents` — a block more for the file changes no byte of it;
* `read_contents` — `read` returns the bytes of the contents and leaves these as they are.

The readers take the size from `size_lo`, so this is about files of less than `2 ^ 32` bytes.
-/

namespace QuackOS.Ext4

open Buffer Ext4ExtentBlock
open Ext4FileSystem (Fresh)

/-! ## Pages -/

namespace Ext4InodeDisk

/-- The bytes page `i` of the file has on the device. -/
def diskPage (d : Ext4InodeDisk) (fs : Ext4FileSystem) (i : ℕ) : Buffer :=
  if d.hasInlineData then
    if i = 0 then (newInlinePageCache d.block).data else fun _ => 0
  else
    match d.physicalAt fs (UInt32.ofNat i) with
    | some x => fs.block x
    | none => fun _ => 0

end Ext4InodeDisk

namespace Ext4Inode

/-- The bytes of page `i`: those in the cache, or those on the device. -/
def pageAt (ino : Ext4Inode) (fs : Ext4FileSystem) (i : ℕ) : Buffer :=
  match ino.pages[i]? with
  | some p => p.data
  | none => ino.inodeOnDisk.diskPage fs i

/-- The byte at position `k` of the file. -/
def byteAt (ino : Ext4Inode) (fs : Ext4FileSystem) (k : ℕ) : BitVec 8 :=
  ino.pageAt fs (k / pageSize) (k % pageSize)

/-- The bytes of the file. -/
def fileBytes (ino : Ext4Inode) (fs : Ext4FileSystem) : List (BitVec 8) :=
  Contents.tabulate (ino.byteAt fs) ino.getSize

end Ext4Inode

/-- A page read from a block. -/
theorem newPageCache_data (fs : Ext4FileSystem) {x : ℕ} (hx : x < maxFsBlockId) :
    (newPageCache fs x).data = fs.block x := by
  have hand : x &&& maxFsBlockId ≠ maxFsBlockId := fun h => by
    have := Nat.and_le_left (n := x) (m := maxFsBlockId)
    omega
  simp only [newPageCache]
  rw [if_pos ⟨hx.ne, hand⟩]
  rfl

/-- The page of a hole. -/
theorem newPageCache_hole (fs : Ext4FileSystem) (i : ℕ) :
    (newPageCache fs (maxFsBlockId ||| i)).data = fun _ => 0 := by
  have hand : (maxFsBlockId ||| i) &&& maxFsBlockId = maxFsBlockId := by
    apply Nat.eq_of_testBit_eq
    intro j
    rw [Nat.testBit_and, Nat.testBit_or]
    cases maxFsBlockId.testBit j <;> simp
  simp only [newPageCache]
  rw [if_neg (fun h => h.2 hand)]

theorem logicalBlockOf_eq {fs : Ext4FileSystem} (h : fs.blockSize = 4096) (i : ℕ) :
    logicalBlockOf fs i = UInt32.ofNat i := by
  rw [logicalBlockOf, h, show pageSize / 4096 = 1 from rfl]
  exact UInt32.mul_one _

/-! ## Trees -/

namespace Ext4ExtentBlock

/-- The index a lookup descends to, of two in order. -/
theorem lastIdx_two {i j : Ext4ExtentIdx} (hij : i.block ≤ j.block) (l : UInt32) :
    lastIdx [i, j] l =
      if j.block ≤ l then some j else if i.block ≤ l then some i else none := by
  unfold lastIdx
  by_cases hj : j.block ≤ l
  · have hi : i.block ≤ l := UInt32.le_trans hij hj
    simp [hi, hj, hij]
  · by_cases hi : i.block ≤ l
    · simp [hi, hj]
    · simp [hi, hj]

/-- A lookup below a root with two leaves. -/
theorem lookupExtent_two {dev : Buffer} {bs fuel : ℕ} {b : Buffer} {i j : Ext4ExtentIdx}
    (h : (extentHeader b).depth ≠ 0) (hidxs : extentIdxs b = [i, j]) (hij : i.block ≤ j.block)
    (hi : (extentHeader (readExt4Block dev i.physicalLeafBlock bs)).depth = 0)
    (hj : (extentHeader (readExt4Block dev j.physicalLeafBlock bs)).depth = 0) (l : UInt32) :
    lookupExtent dev bs (fuel + 2) b l =
      if j.block ≤ l then
        (extents (readExt4Block dev j.physicalLeafBlock bs)).find? fun e => e.covers l
      else if i.block ≤ l then
        (extents (readExt4Block dev i.physicalLeafBlock bs)).find? fun e => e.covers l
      else none := by
  rw [lookupExtent, if_neg h, hidxs, lastIdx_two hij]
  by_cases hlj : j.block ≤ l
  · simp only [if_pos hlj, lookupExtent_leaf hj]
  · by_cases hli : i.block ≤ l
    · simp only [if_neg hlj, if_pos hli, lookupExtent_leaf hi]
    · simp only [if_neg hlj, if_neg hli]

end Ext4ExtentBlock

namespace Split

variable {fs fs' : Ext4FileSystem} {root root' : Buffer} {leftBlock rightBlock : ℕ}
  {left right : List Ext4Extent} {first second : Ext4Extent}

/-- **A split keeps every lookup.**  The two leaves divide the extents at the second index. -/
theorem lookup (h : Split fs root fs' root' leftBlock rightBlock left right first second)
    (hs : fs.Sound) (hlen : (Ext4ExtentBlock.extents root).length ≤ 340)
    (hord : Ext4Extent.Ordered (Ext4ExtentBlock.extents root)) (l : UInt32) :
    Ext4ExtentBlock.lookupExtent fs'.device fs'.blockSize maxDepth root' l =
      (Ext4ExtentBlock.extents root).find? fun e => e.covers l := by
  obtain ⟨hsound, -, -, hnew, -, -, hl, hr⟩ := h.spec hs hlen
  have hlt : ∀ x ∈ [leftBlock, rightBlock], x < 2 ^ 48 := fun x hx => by
    have := hsound.lt_of_used (hnew x hx).2
    omega
  have hli := Ext4ExtentIdx.physicalLeafBlock_new first.logicalBlock (hlt leftBlock (by simp))
  have hri := Ext4ExtentIdx.physicalLeafBlock_new second.logicalBlock (hlt rightBlock (by simp))
  obtain ⟨ls, hleft⟩ := List.head?_eq_some_iff.mp h.left
  obtain ⟨rs, hright⟩ := List.head?_eq_some_iff.mp h.right
  have hsplit := h.extents
  have hmem : ∀ e ∈ left ++ right, e ∈ Ext4ExtentBlock.extents root := fun e he => hsplit ▸ he
  have horder := hord.inOrder
  rw [hsplit] at horder
  obtain ⟨hinl, hinr, hcross⟩ := List.pairwise_append.mp horder
  have hfirst_lt : first.first < first.stop := hord.first_lt first (hmem _ (by rw [hleft]; simp))
  have hblocks : first.logicalBlock ≤ second.logicalBlock := by
    have := hcross first (by rw [hleft]; simp) second (by rw [hright]; simp)
    rw [UInt32.le_iff_toNat_le]
    unfold Ext4Extent.first at *
    omega
  -- no extent in front of `first`, and the extents of the right leaf start at `second`
  have hfrom : ∀ e ∈ left ++ right, first.first ≤ e.first := by
    intro e he
    rw [hleft, List.cons_append] at he horder
    rcases List.mem_cons.mp he with rfl | he
    · exact le_rfl
    · have := (List.pairwise_cons.mp horder).1 e he
      omega
  have hsecond : ∀ e ∈ right, second.first ≤ e.first := by
    intro e he
    have hlt := hord.first_lt second (hmem _ (by rw [hright]; simp))
    rw [hright] at he hinr
    rcases List.mem_cons.mp he with rfl | he
    · exact le_rfl
    · have := (List.pairwise_cons.mp hinr).1 e he
      omega
  have hcovers : ∀ e ∈ left ++ right, e.covers l = true ↔ e.first ≤ l.toNat ∧ l.toNat < e.stop :=
    fun e he => Ext4Extent.covers_iff (hord.stop_lt e (hmem e he))
  have htwo := @lookupExtent_two fs'.device fs'.blockSize 65534 root' _ _ h.depth h.idxs hblocks
    (by rw [hli]; exact hl.1) (by rw [hri]; exact hr.1) l
  rw [hli, hri] at htwo
  have hextl : Ext4ExtentBlock.extents (readExt4Block fs'.device leftBlock fs'.blockSize) = left :=
    hl.2
  have hextr : Ext4ExtentBlock.extents (readExt4Block fs'.device rightBlock fs'.blockSize) =
      right := hr.2
  rw [maxDepth_eq, htwo, hextl, hextr, hsplit, List.find?_append]
  by_cases hj : second.logicalBlock ≤ l
  · -- nothing on the left reaches as far as `second`
    have hnone : left.find? (fun e => e.covers l) = none := by
      rw [List.find?_eq_none]
      intro e he hcov
      have hstop := hcross e he second (by rw [hright]; simp)
      rw [hcovers e (List.mem_append_left _ he)] at hcov
      rw [UInt32.le_iff_toNat_le] at hj
      unfold Ext4Extent.first at *
      omega
    rw [hnone, Option.none_or]
    exact if_pos hj
  · have hnone : right.find? (fun e => e.covers l) = none := by
      rw [List.find?_eq_none]
      intro e he hcov
      have hge := hsecond e he
      rw [hcovers e (List.mem_append_right _ he)] at hcov
      rw [UInt32.le_iff_toNat_le] at hj
      unfold Ext4Extent.first at *
      omega
    rw [hnone, Option.or_none]
    refine (if_neg hj).trans ?_
    by_cases hi : first.logicalBlock ≤ l
    · exact if_pos hi
    · refine (if_neg hi).trans ?_
      symm
      rw [List.find?_eq_none]
      intro e he hcov
      have hge := hfrom e (List.mem_append_left _ he)
      rw [hcovers e (List.mem_append_left _ he)] at hcov
      rw [UInt32.le_iff_toNat_le] at hi
      unfold Ext4Extent.first at *
      omega

end Split

namespace Ext4InodeDisk

variable {R : Set ℕ} {d d' : Ext4InodeDisk} {fs fs' : Ext4FileSystem} {l : UInt32}

/-- A tree whose lookups agree: what covers a block that was found is found for every block it
covers.  A leaf root has its extents in order and room for four of them. -/
structure TreeOk (d : Ext4InodeDisk) (fs : Ext4FileSystem) : Prop where
  leaf : (extentHeader d.block).depth = 0 →
    Ext4Extent.Ordered (extents d.block) ∧ (extentHeader d.block).max = 4
  steady : ∀ {l m : UInt32} {e : Ext4Extent}, d.lookupExtent fs l = some e → e.covers m = true →
    d.lookupExtent fs m = some e

theorem TreeOk.of_leaf (hdepth : (extentHeader d.block).depth = 0)
    (hord : Ext4Extent.Ordered (extents d.block)) (hmax : (extentHeader d.block).max = 4) :
    d.TreeOk fs where
  leaf := fun _ => ⟨hord, hmax⟩
  steady := fun {l m e} hl hm => by
    rw [lookupExtent_eq_some_iff hdepth hord] at hl ⊢
    exact ⟨hl.1, (Ext4Extent.covers_iff (hord.stop_lt e hl.1)).mp hm⟩

theorem physicalAt_eq_some {x : ℕ} :
    d.physicalAt fs l = some x ↔ ∃ e, d.lookupExtent fs l = some e ∧ fsBlockIdOf e l = x :=
  Option.map_eq_some_iff

/-- A block a page is read from belongs to the file. -/
theorem physicalAt_mapped (hinline : d.hasInlineData = false) {x : ℕ}
    (h : d.physicalAt fs l = some x) : x ∈ d.mapped fs := by
  obtain ⟨e, he, rfl⟩ := physicalAt_eq_some.mp h
  obtain ⟨hlive, hcov⟩ := lookupExtent_live hinline he
  exact mem_mapped hlive (Ext4Extent.fsBlockIdOf_mem hcov)

theorem diskPage_of_physicalAt (hinline : d.hasInlineData = false) {i x : ℕ}
    (h : d.physicalAt fs (UInt32.ofNat i) = some x) : d.diskPage fs i = fs.block x := by
  rw [diskPage, hinline, h]
  rfl

theorem diskPage_of_none (hinline : d.hasInlineData = false) {i : ℕ}
    (h : d.lookupExtent fs (UInt32.ofNat i) = none) : d.diskPage fs i = fun _ => 0 := by
  rw [diskPage, hinline, physicalAt_eq_none.mpr h]
  rfl

/-- The pages of a tree that finds the same extents. -/
theorem diskPage_congr (hflag : d'.hasInlineData = d.hasInlineData)
    (hinline : d.hasInlineData = false) (hlookup : ∀ m, d'.lookupExtent fs' m = d.lookupExtent fs m)
    (hblock : ∀ x ∈ d.mapped fs, fs'.block x = fs.block x) (i : ℕ) :
    d'.diskPage fs' i = d.diskPage fs i := by
  have hphys : d'.physicalAt fs' (UInt32.ofNat i) = d.physicalAt fs (UInt32.ofNat i) := by
    rw [physicalAt, hlookup, physicalAt]
  cases hx : d.physicalAt fs (UInt32.ofNat i) with
  | none =>
    rw [diskPage_of_none hinline (physicalAt_eq_none.mp hx),
      diskPage_of_none (hflag.trans hinline) (physicalAt_eq_none.mp (hphys.trans hx))]
  | some x =>
    rw [diskPage_of_physicalAt hinline hx,
      diskPage_of_physicalAt (hflag.trans hinline) (hphys.trans hx),
      hblock x (physicalAt_mapped hinline hx)]

/-- A file system that keeps the blocks of the file keeps its tree and its pages. -/
theorem diskPage_of_kept (hsize : fs'.blockSize = fs.blockSize)
    (h : ∀ x ∈ d.owned fs, fs'.block x = fs.block x) (i : ℕ) :
    d.diskPage fs' i = d.diskPage fs i := by
  by_cases hinline : d.hasInlineData = true
  · simp only [diskPage, hinline, if_true]
  · have hinline : d.hasInlineData = false := by simpa using hinline
    have hlookup := (tree_congr hsize fun x hx => h x (Owns.mem_nodes hx)).2.2 hinline
    exact diskPage_congr rfl hinline hlookup (fun x hx => h x (mem_owned_of_mapped hx)) i

theorem TreeOk.of_kept (ht : d.TreeOk fs) (hinline : d.hasInlineData = false)
    (hsize : fs'.blockSize = fs.blockSize) (h : ∀ x ∈ d.nodes fs, fs'.block x = fs.block x) :
    d.TreeOk fs' where
  leaf := ht.leaf
  steady := fun {l m e} hl hm => by
    have hlookup := (tree_congr hsize h).2.2 hinline
    rw [hlookup] at hl ⊢
    exact ht.steady hl hm

/-! ## Insertion -/

/-- A leaf root that maps one block more, to a block of zeros, has the pages it had. -/
theorem diskPage_of_inserts {p : ℕ} (hinline : d.hasInlineData = false)
    (hflag : d'.hasInlineData = d.hasInlineData) (hzero : fs.block p = fun _ => 0)
    (hnone : d.lookupExtent fs l = none)
    (hat : ∀ m : UInt32, d'.physicalAt fs m =
      if m = l then some p else d.physicalAt fs m) (i : ℕ) :
    d'.diskPage fs i = d.diskPage fs i := by
  have hati := hat (UInt32.ofNat i)
  split at hati
  · rename_i hil
    rw [diskPage_of_physicalAt (hflag.trans hinline) hati, hzero,
      diskPage_of_none hinline (by rw [hil]; exact hnone)]
  · simp only [diskPage, hflag, hinline, hati, Bool.false_eq_true, if_false]

/-- The pages of a file after a block of zeros was put into its tree, whether it found its place
there or not. -/
theorem insertExtent_contents (h : Owns R fs d) (hinline : d.hasInlineData = false)
    (ht : d.TreeOk fs) {p : ℕ} (hspare : Spare R fs d [p]) (hzero : fs.block p = fun _ => 0)
    (hl : l.toNat + 1 < 2 ^ 32) (hnone : d.lookupExtent fs l = none)
    (hi : d.insertExtent l p 1 fs = some (.ok (), d', fs')) :
    d'.TreeOk fs' ∧ (∀ i, d'.diskPage fs' i = d.diskPage fs i) ∧ fs'.block p = fun _ => 0 := by
  have hp : p < 64 * 32768 := h.sound.lt_of_used (hspare.used p (by simp))
  have hfits := h.ordered.root hinline
  have hflag : ∀ {root : Buffer},
      ({ d with block := root } : Ext4InodeDisk).hasInlineData = d.hasInlineData := rfl
  have hunmapped : ∀ m : UInt32, l.toNat ≤ m.toNat → m.toNat < l.toNat + 1 →
      d.lookupExtent fs m = none := by
    intro m hm hm'
    have hml : m = l := UInt32.toNat_inj.mp (by omega)
    rw [hml, hnone]
  have hleaf : (extentHeader d.block).depth = 0 → Ext4Extent.Ordered (extents d.block) ∧
      (extentHeader d.block).max = 4 ∧ (extentHeader d.block).entries ≤ 4 := by
    intro hdepth
    obtain ⟨hord, hmax⟩ := ht.leaf hdepth
    have hroom := (hfits hdepth).1
    rw [hmax] at hroom
    exact ⟨hord, hmax, UInt16.le_iff_toNat_le.mpr hroom⟩
  have hbuilt : Built (d, fs) [⟨l, p, 1⟩] := by
    refine ⟨h.sound, hleaf, ?_, List.pairwise_singleton _ _, ?_⟩
    · intro c hc
      rw [List.mem_singleton.mp hc]
      exact ⟨by dsimp only; omega, Nat.one_pos, by dsimp only; omega, hl.le⟩
    · intro c hc m hm hm'
      rw [List.mem_singleton.mp hc] at hm hm'
      exact hunmapped m hm hm'
  have hstep : insertStep (d, fs) ⟨l, p, 1⟩ = some (d', fs') := by
    rw [insertStep]
    exact congrArg (Option.map _) hi
  -- where the tree takes the block, it is a leaf on the same file system
  have htaken : Insertable (d, fs) ⟨l, p, 1⟩ → fs' = fs → d'.hasInlineData = d.hasInlineData →
      (extentHeader d'.block).depth = 0 →
      d'.TreeOk fs' ∧ (∀ i, d'.diskPage fs' i = d.diskPage fs i) ∧ fs'.block p = fun _ => 0 := by
    rintro hins rfl hd hdepth'
    have hlaw : ∀ m : UInt32, d'.physicalAt fs' m =
        if l.toNat ≤ m.toNat ∧ m.toNat < l.toNat + 1 then some (p + (m.toNat - l.toNat))
        else d.physicalAt fs' m := (hbuilt.inserts_iff hstep).mpr hins d' fs' hi
    obtain ⟨hord', hmax', -⟩ := (hbuilt.step hins hstep).leaf hdepth'
    refine ⟨TreeOk.of_leaf hdepth' hord' hmax', ?_, hzero⟩
    refine diskPage_of_inserts hinline hd hzero hnone fun m => ?_
    rw [hlaw m]
    have hiff : (l.toNat ≤ m.toNat ∧ m.toNat < l.toNat + 1) ↔ m = l := by
      rw [← UInt32.toNat_inj]
      omega
    by_cases hml : m = l
    · rw [if_pos (hiff.mpr hml), if_pos hml, hml]
      rw [Nat.sub_self, Nat.add_zero]
    · rw [if_neg (mt hiff.mp hml), if_neg hml]
  cases insertExtent_insertedBy (fun hdepth => (hfits hdepth).1) hi with
  | below hdepth hbelow => exact ⟨ht, fun _ => rfl, hzero⟩
  | @merged i e root hdepth hfind hget hm hheader hextents =>
    refine htaken ?_ rfl hflag (by rw [hheader]; exact hdepth)
    have hlive : e ∈ d.liveExtents fs :=
      (Ext4InodeDisk.liveExtents_leaf hinline hdepth).symm ▸ List.mem_of_getElem? hget
    have hlt := h.extent_lt hlive
    unfold Insertable
    rw [if_pos hdepth, hfind]
    refine ⟨?_, hl⟩
    -- both block numbers have 32 bits
    simp only [Ext4Extent.mergesWith, Bool.and_eq_true, beq_iff_eq] at hm
    have := congrArg UInt32.toNat hm.1.2
    simp only [UInt32.toNat_ofNat', UInt32.toNat_add, UInt16.toNat_toUInt32] at this
    dsimp only
    omega
  | @split r root fs₁ hdepth hfind hfull hsplit hbelow =>
    obtain ⟨leftBlock, rightBlock, left, right, first, second, hs⟩ :=
      splitLeafBlock_eq_some h.sound hdepth hsplit
    obtain ⟨hord, hmax, hfew⟩ := hleaf hdepth
    have hlen : (extents d.block).length ≤ 340 := by
      rw [length_extents]
      exact (UInt16.le_iff_toNat_le.mp hfew).trans (by decide)
    obtain ⟨hsound, -, -, hnew, -, hblock, -⟩ := hs.spec h.sound hlen
    have hlookup : ∀ m, ({ d with block := root } : Ext4InodeDisk).lookupExtent fs' m =
        d.lookupExtent fs m := fun m => by
      rw [lookupExtent_root hdepth]
      exact hs.lookup h.sound hlen hord m
    -- the two new nodes are none of the blocks in use
    have hkept : ∀ x, fs.used x = true → x ∉ fs.bitmaps → fs'.block x = fs.block x := by
      intro x hused hb
      refine hblock x hb fun hx => ?_
      rw [(hnew x hx).1] at hused
      cases hused
    refine ⟨⟨fun h0 => absurd h0 hs.depth, ?_⟩, ?_, ?_⟩
    · intro m m' e hm hcov
      rw [hlookup] at hm ⊢
      exact ht.steady hm hcov
    · refine diskPage_congr hflag hinline hlookup fun x hx => ?_
      have hx := mem_owned_of_mapped hx
      exact hkept x (h.used x hx) (h.not_bitmap hx)
    · rw [hkept p (hspare.used p (by simp)) fun hb => hspare.apart p (by simp) (h.bitmaps p hb)]
      exact hzero
  | added hdepth hfind hroom hdepth' hmax hentries hperm hsorted =>
    refine htaken ?_ rfl hflag hdepth'
    unfold Insertable
    rw [if_pos hdepth, hfind]
    dsimp only
    rw [if_neg hroom]
    exact hl

/-- The extent found last, when the loops over pages come to page `i`: it starts no later, and
from there on it is what a lookup of a block it covers would find. -/
def Follows (d : Ext4InodeDisk) (fs : Ext4FileSystem) (i : ℕ) (current : Option Ext4Extent) :
    Prop :=
  ∀ e, current = some e → e.logicalBlock.toNat ≤ i ∧
    ∀ m : UInt32, i ≤ m.toNat → e.covers m = true → d.lookupExtent fs m = some e

theorem Follows.none (d : Ext4InodeDisk) (fs : Ext4FileSystem) (i : ℕ) :
    d.Follows fs i Option.none := fun _ he => by cases he

theorem Follows.mono {i j : ℕ} {current : Option Ext4Extent} (h : d.Follows fs i current)
    (hij : i ≤ j) : d.Follows fs j current := fun e he =>
  ⟨(h e he).1.trans hij, fun m hm => (h e he).2 m (hij.trans hm)⟩

/-- An extent that was found can be followed. -/
theorem TreeOk.follows (ht : d.TreeOk fs) {e : Ext4Extent} (h : d.lookupExtent fs l = some e) :
    d.Follows fs l.toNat (some e) := by
  rintro _ ⟨⟩
  have hcov := Ext4Extent.covers_bounds (lookupExtent_mem h).2
  exact ⟨hcov.1, fun m _ hm => ht.steady h hm⟩

/-- The extent used again is the one a lookup would find. -/
theorem Follows.reusable {current : Option Ext4Extent} {e : Ext4Extent}
    (h : d.Follows fs l.toNat current) (he : reusable current l = some e) :
    d.lookupExtent fs l = some e := by
  obtain ⟨hcurrent, hlt⟩ := Option.filter_eq_some_iff.mp he
  obtain ⟨hle, hfollow⟩ := h e hcurrent
  refine hfollow l le_rfl ?_
  rw [Ext4Extent.covers, Bool.and_eq_true, decide_eq_true_eq, UInt32.le_iff_toNat_le]
  exact ⟨hle, hlt⟩

/-- A found extent leads to the page. -/
theorem block_of_lookup (hinline : d.hasInlineData = false) {e : Ext4Extent}
    (h : d.lookupExtent fs l = some e) : fs.block (fsBlockIdOf e l) = d.diskPage fs l.toNat := by
  rw [diskPage_of_physicalAt hinline (x := fsBlockIdOf e l)]
  rw [UInt32.ofNat_toNat]
  exact physicalAt_eq_some.mpr ⟨e, h, rfl⟩

/-- A block of the file is no mark of a hole. -/
theorem fsBlockIdOf_lt (h : Owns R fs d) (hinline : d.hasInlineData = false) {e : Ext4Extent}
    (he : d.lookupExtent fs l = some e) : fsBlockIdOf e l < maxFsBlockId := by
  have hmapped := physicalAt_mapped hinline (physicalAt_eq_some.mpr ⟨e, he, rfl⟩)
  have := h.sound.lt_of_used (h.used _ (mem_owned_of_mapped hmapped))
  unfold maxFsBlockId
  omega

/-- What `lookup_or_create_extent` leaves of the file, and the page its extent leads to. -/
structure Fetches (d : Ext4InodeDisk) (fs : Ext4FileSystem) (l : UInt32) (e : Ext4Extent)
    (d' : Ext4InodeDisk) (fs' : Ext4FileSystem) : Prop where
  tree : d'.TreeOk fs'
  page : ∀ i, d'.diskPage fs' i = d.diskPage fs i
  data : fs'.block (fsBlockIdOf e l) = d.diskPage fs l.toNat
  lt : fsBlockIdOf e l < maxFsBlockId
  follows : d'.Follows fs' (l.toNat + 1) (some e)

/-- **`lookup_or_create_extent`** changes no byte of the file: a new block is one of zeros, where
there were none, and leads to zeros even when the tree has no place for it. -/
theorem lookupOrCreateExtent_contents (h : Owns R fs d) (hinline : d.hasInlineData = false)
    (ht : d.TreeOk fs) (hl : l.toNat + 1 < 2 ^ 32) {e : Ext4Extent}
    (hr : d.lookupOrCreateExtent fs l = some (e, d', fs')) : d.Fetches fs l e d' fs' := by
  unfold lookupOrCreateExtent at hr
  split at hr
  · rename_i hfound
    cases hr
    exact ⟨ht, fun _ => rfl, block_of_lookup hinline hfound, fsBlockIdOf_lt h hinline hfound,
      (ht.follows hfound).mono (Nat.le_succ _)⟩
  · rename_i hnone
    split at hr
    · cases hr
    · rename_i newBlock fs₁ halloc
      have hf := h.sound.allocOneBlock halloc
      obtain ⟨h₁, -, -, -⟩ := h.fresh hf
      have hlt : newBlock < 64 * 32768 := hf.lt (by simp)
      have hsize : fs₁.blockSize = fs.blockSize := hf.sound.blockSize.trans h.sound.blockSize.symm
      have hkept : ∀ x ∈ d.owned fs, fs₁.block x = fs.block x := fun x hx =>
        hf.block x (h.not_bitmap hx) (hf.not_mem_of_used (h.used x hx))
      have ht₁ : d.TreeOk fs₁ := ht.of_kept hinline hsize fun x hx => hkept x (Owns.mem_nodes hx)
      have hlookup := (tree_congr hsize fun x hx => hkept x (Owns.mem_nodes hx)).2.2 hinline l
      dsimp only at hr
      rw [Ext4Extent.physicalStartBlock_new _ _ (by omega)] at hr
      split at hr
      · rename_i r d₁ fs₂ hins
        cases hr
        obtain ⟨htree, hpage, hzero⟩ := insertExtent_contents h₁ hinline ht₁ (h.spare_of_fresh hf)
          (hf.zero newBlock (by simp)) hl (hlookup.trans hnone) hins
        have hid : fsBlockIdOf (Ext4Extent.new l 1 newBlock) l = newBlock := by
          rw [fsBlockIdOf, Ext4Extent.physicalStartBlock_new _ _ (by omega)]
          exact Nat.add_sub_cancel ..
        refine ⟨htree, fun i => (hpage i).trans (diskPage_of_kept hsize hkept i), ?_, ?_, ?_⟩
        · rw [hid, hzero, diskPage_of_none hinline]
          rw [UInt32.ofNat_toNat]
          exact hnone
        · rw [hid]
          unfold maxFsBlockId
          omega
        · -- the new extent covers no later block
          rintro _ ⟨⟩
          refine ⟨Nat.le_succ _, fun m hm hcov => ?_⟩
          have := (Ext4Extent.covers_bounds hcov).2
          simp only [Ext4Extent.new, UInt16.toNat_one] at this
          omega
      · cases hr

end Ext4InodeDisk

/-! ## Inodes -/

namespace Ext4Inode

variable {R : Set ℕ} {ino ino' ino'' : Ext4Inode} {fs fs' fs'' : Ext4FileSystem}

/-- **A sane inode.**  Its seals forbid nothing, its size is one the readers see whole, it keeps
its data inline or in a tree, and a clean page is what the device has. -/
structure Sane (ino : Ext4Inode) (fs : Ext4FileSystem) : Prop where
  seals : ino.seals &&& 2 = 0 ∧ ino.seals &&& 4 = 0
  size : ino.getSize < 2 ^ 32
  flags : ino.inodeOnDisk.extentsFl = !ino.inodeOnDisk.inlineDataFl
  tree : ino.inodeOnDisk.hasInlineData = false → ino.inodeOnDisk.TreeOk fs
  clean : ∀ i < 2 ^ 32, ∀ p, ino.pages[i]? = some p → p.dirty = false →
    ∀ j < pageSize, p.data j = ino.inodeOnDisk.diskPage fs i j

/-- From position `n` on there are zeros, in the cache and on the device. -/
def ZeroFrom (ino : Ext4Inode) (fs : Ext4FileSystem) (n : ℕ) : Prop :=
  ∀ i < 2 ^ 32, ∀ j < pageSize, n ≤ i * pageSize + j →
    ino.pageAt fs i j = 0 ∧ ino.inodeOnDisk.diskPage fs i j = 0

/-- Nothing a reader can see has changed. -/
structure Intact (ino : Ext4Inode) (fs : Ext4FileSystem) (ino' : Ext4Inode)
    (fs' : Ext4FileSystem) : Prop where
  kept : ino.Kept ino'
  sane : ino'.Sane fs'
  seals : ino'.seals = ino.seals
  flag : ino'.inodeOnDisk.hasInlineData = ino.inodeOnDisk.hasInlineData
  links : ino'.inodeOnDisk.linksCount = ino.inodeOnDisk.linksCount
  page : ∀ i, ino'.pageAt fs' i = ino.pageAt fs i
  disk : ∀ i, ino'.inodeOnDisk.diskPage fs' i = ino.inodeOnDisk.diskPage fs i

theorem Intact.refl (h : ino.Sane fs) : ino.Intact fs ino fs :=
  ⟨.refl _, h, rfl, rfl, rfl, fun _ => rfl, fun _ => rfl⟩

theorem Intact.trans (h : ino.Intact fs ino' fs') (h' : ino'.Intact fs' ino'' fs'') :
    ino.Intact fs ino'' fs'' where
  kept := h.kept.trans h'.kept
  sane := h'.sane
  seals := h'.seals.trans h.seals
  flag := h'.flag.trans h.flag
  links := h'.links.trans h.links
  page := fun i => (h'.page i).trans (h.page i)
  disk := fun i => (h'.disk i).trans (h.disk i)

theorem Intact.zeroFrom {n : ℕ} (h : ino.Intact fs ino' fs') (hz : ino.ZeroFrom fs n) :
    ino'.ZeroFrom fs' n := fun i hi j hj hn => by
  rw [h.page, h.disk]
  exact hz i hi j hj hn

theorem Sane.sizeLo (h : ino.Sane fs) : ino.inodeOnDisk.sizeLo = ino.getSize :=
  Nat.mod_eq_of_lt h.size

/-- The pages of an inode one page of which was put into the cache. -/
theorem pageAt_insertPage (i j : ℕ) (p : Page) :
    (ino.insertPage i p).pageAt fs j = if i = j then p.data else ino.pageAt fs j := by
  unfold pageAt
  rw [getElem?_insertPage]
  by_cases hij : i = j
  · rw [if_pos hij, if_pos hij]
  · rw [if_neg hij, if_neg hij]
    rfl

/-- A page is fetched from the device, where the tree may have got a block for it. -/
theorem Sane.fetch (h : ino.Sane fs) {d : Ext4InodeDisk}
    (hd : d = { ino.inodeOnDisk with block := d.block })
    (htree : ino.inodeOnDisk.hasInlineData = false → d.TreeOk fs')
    (hpage : ∀ i, d.diskPage fs' i = ino.inodeOnDisk.diskPage fs i) {i : ℕ}
    (hnone : ino.pages[i]? = none) {p : Page} (hp : p.data = ino.inodeOnDisk.diskPage fs i) :
    ino.Intact fs ({ ino with inodeOnDisk := d }.insertPage i p) fs' := by
  have hinline : d.inlineDataFl = ino.inodeOnDisk.inlineDataFl := by rw [hd]
  have hsize : d.size = ino.inodeOnDisk.size := by rw [hd]
  have hlinks : d.linksCount = ino.inodeOnDisk.linksCount := by rw [hd]
  have hat : ∀ k, ({ ino with inodeOnDisk := d }.insertPage i p).pageAt fs' k = ino.pageAt fs k := by
    intro k
    rw [pageAt_insertPage]
    split
    · rename_i hik
      rw [← hik, hp, pageAt, hnone]
    · unfold pageAt
      dsimp only
      cases ino.pages[k]? with
      | none => exact hpage k
      | some q => rfl
  refine ⟨kept_fetch hnone hsize, ⟨h.seals, ?_, ?_, ?_, ?_⟩, rfl, hinline, hlinks, hat, hpage⟩
  · show d.size < 2 ^ 32
    rw [hsize]
    exact h.size
  · show d.extentsFl = !d.inlineDataFl
    rw [hd]
    exact h.flags
  · exact fun h0 => htree (hinline.symm.trans h0)
  · intro k hk q hq hdirty j hj
    rw [getElem?_insertPage] at hq
    show q.data j = d.diskPage fs' k j
    split at hq
    · rename_i hik
      cases hq
      rw [hpage, hp, hik]
    · rw [hpage]
      exact h.clean k hk q hq hdirty j hj

/-- A page of the device put into the cache. -/
theorem Sane.fetchClean (h : ino.Sane fs) {i : ℕ} (hnone : ino.pages[i]? = none) {p : Page}
    (hp : p.data = ino.inodeOnDisk.diskPage fs i) :
    ino.Intact fs (ino.insertPage i p) fs :=
  h.fetch rfl h.tree (fun _ => rfl) hnone hp

/-! ## Reading -/

/-- The page of an inline file. -/
theorem diskPage_inline {d : Ext4InodeDisk} (h : d.hasInlineData = true) :
    (newInlinePageCache d.block).data = d.diskPage fs 0 := by
  rw [Ext4InodeDisk.diskPage, if_pos h, if_pos rfl]

/-- The page a round of the loop of `read` copies from has the bytes of the file. -/
theorem readPage_intact (ho : Owns R fs ino.inodeOnDisk) (hs : ino.Sane fs) {i : ℕ}
    {current current' : Option Ext4Extent} {p : Page} (hi : i < 2 ^ 32)
    (hfollow : ino.inodeOnDisk.Follows fs i current)
    (hcase : ino.pages[i]? = none → ino.inodeOnDisk.hasInlineData = false)
    (h : ino.readPage fs i current = (p, current', ino')) :
    ino.Intact fs ino' fs ∧ p.data = ino.pageAt fs i ∧ ino'.inodeOnDisk = ino.inodeOnDisk ∧
      ino.inodeOnDisk.Follows fs i current' := by
  unfold readPage at h
  split at h
  · rename_i hpage
    cases h
    exact ⟨.refl hs, by rw [pageAt, hpage], rfl, hfollow⟩
  · rename_i hpage
    have hinline := hcase hpage
    have hl : logicalBlockOf fs i = UInt32.ofNat i := logicalBlockOf_eq ho.sound.blockSize i
    have hli : (UInt32.ofNat i).toNat = i := UInt32.toNat_ofNat_of_lt' hi
    have hat : ino.pageAt fs i = ino.inodeOnDisk.diskPage fs i := by rw [pageAt, hpage]
    -- a page read from the block of an extent that a lookup finds
    have hfound : ∀ e, ino.inodeOnDisk.lookupExtent fs (UInt32.ofNat i) = some e →
        (newPageCache fs (fsBlockIdOf e (UInt32.ofNat i))).data =
          ino.inodeOnDisk.diskPage fs i := by
      intro e he
      rw [newPageCache_data fs (Ext4InodeDisk.fsBlockIdOf_lt ho hinline he),
        Ext4InodeDisk.block_of_lookup hinline he, hli]
    rw [hl] at h
    dsimp only at h
    split at h
    · rename_i e hreuse
      cases h
      have he := Ext4InodeDisk.Follows.reusable (hli.symm ▸ hfollow) hreuse
      exact ⟨hs.fetchClean hpage (hfound e he), (hfound e he).trans hat.symm, rfl, hfollow⟩
    · split at h
      · rename_i e he
        cases h
        have hnext := (hs.tree hinline).follows he
        rw [hli] at hnext
        exact ⟨hs.fetchClean hpage (hfound e he), (hfound e he).trans hat.symm, rfl, hnext⟩
      · rename_i he
        cases h
        have hhole : (newPageCache fs (maxFsBlockId ||| i)).data =
            ino.inodeOnDisk.diskPage fs i := by
          rw [newPageCache_hole, Ext4InodeDisk.diskPage_of_none hinline he]
        exact ⟨hs.fetchClean hpage hhole, hhole.trans hat.symm, rfl, .none _ _ _⟩

/-- The bytes of the file from `off` on. -/
def bytesFrom (ino : Ext4Inode) (fs : Ext4FileSystem) (off n : ℕ) : List (BitVec 8) :=
  (List.range' off n).map (ino.byteAt fs)

theorem length_bytesFrom (off n : ℕ) : (ino.bytesFrom fs off n).length = n := by
  simp [bytesFrom]

theorem bytesFrom_append (off m n : ℕ) :
    ino.bytesFrom fs off m ++ ino.bytesFrom fs (off + m) n = ino.bytesFrom fs off (m + n) := by
  rw [bytesFrom, bytesFrom, bytesFrom, ← List.map_append, List.range'_append_1]

/-- A part of a page. -/
theorem slice_eq_bytesFrom {p : Page} {pos n : ℕ} (hp : p.data = ino.pageAt fs (pos / pageSize))
    (hn : pos % pageSize + n ≤ pageSize) :
    p.slice (pos % pageSize) n = ino.bytesFrom fs pos n := by
  refine List.ext_getElem (by simp [Page.slice, bytesFrom]) fun k hk _ => ?_
  simp only [Page.slice, List.length_map, List.length_range'] at hk
  have hdiv : (pos + k) / pageSize = pos / pageSize := by
    unfold pageSize at hn ⊢
    omega
  have hmod : (pos + k) % pageSize = pos % pageSize + k := by
    unfold pageSize at hn ⊢
    omega
  simp only [Page.slice, bytesFrom, List.getElem_map, List.getElem_range', one_mul, byteAt]
  rw [hdiv, hmod, hp]

/-- The bytes of an intact file. -/
theorem Intact.byteAt (h : ino.Intact fs ino' fs') (k : ℕ) : ino'.byteAt fs' k = ino.byteAt fs k := by
  rw [Ext4Inode.byteAt, Ext4Inode.byteAt, h.page]

theorem Intact.bytesFrom (h : ino.Intact fs ino' fs') (off n : ℕ) :
    ino'.bytesFrom fs' off n = ino.bytesFrom fs off n :=
  List.map_congr_left fun k _ => h.byteAt k

theorem Intact.contents (h : ino.Intact fs ino' fs') : ino'.fileBytes fs' = ino.fileBytes fs := by
  have hsize : ino'.getSize = ino.getSize := h.kept.size
  rw [fileBytes, fileBytes, hsize]
  exact List.map_congr_left fun k _ => h.byteAt k

/-- The loop of `read`, when the bytes up to `base + n` were copied: it copies the rest of those
asked for, as far as the file goes. -/
theorem readLoop_contents {base rbufLen fuel n : ℕ} {current : Option Ext4Extent}
    (ho : Owns R fs ino.inodeOnDisk) (hs : ino.Sane fs) (hlt : base + n < ino.getSize)
    (hfollow : ino.inodeOnDisk.Follows fs ((base + n) / pageSize) current) (hn : n ≤ rbufLen)
    (hfuel : rbufLen - n ≤ fuel) :
    ∃ ino', readLoop fs base rbufLen ino.getSize fuel ((base + n) / pageSize)
        ((base + n) % pageSize) current ino (ino.bytesFrom fs base n) =
      some (ino.bytesFrom fs base (min rbufLen (ino.getSize - base)), ino') ∧
      ino.Intact fs ino' fs := by
  induction fuel generalizing ino n current with
  | zero =>
    have hend : min rbufLen (ino.getSize - base) = n := by omega
    exact ⟨ino, by rw [readLoop, hend], .refl hs⟩
  | succ fuel ih =>
    have hsize := hs.size
    have hpos : (base + n) / pageSize < 2 ^ 32 := lt_of_le_of_lt (Nat.div_le_self _ _) (by omega)
    by_cases hdone : n = rbufLen
    · have hend : min rbufLen (ino.getSize - base) = n := by omega
      exact ⟨ino, by rw [readLoop_full (by rw [length_bytesFrom]; omega), hend], .refl hs⟩
    unfold readLoop
    rw [length_bytesFrom, if_pos (by omega)]
    by_cases hinline : ino.pages[(base + n) / pageSize]?.isNone ∧ (base + n) / pageSize = 0 ∧
        ino.inodeOnDisk.hasInlineData
    · -- the whole answer comes from `i_block`
      obtain ⟨hnone, hzero, hflag⟩ := hinline
      have hle : ino.getSize ≤ 60 := ho.ordered.inlineSize hflag
      rw [if_pos ⟨hnone, hzero, hflag⟩]
      dsimp only
      rw [hs.sizeLo, if_neg (by omega)]
      have hnone' := Option.isNone_iff_eq_none.mp hnone
      have hfetch := hs.fetchClean hnone' (p := newInlinePageCache ino.inodeOnDisk.block)
        (by rw [hzero]; exact diskPage_inline hflag)
      refine ⟨_, ?_, hfetch⟩
      congr 2
      refine List.map_congr_left fun k hk => ?_
      rw [List.mem_range'_1] at hk
      have hk0 : k / pageSize = 0 := Nat.div_eq_of_lt (by unfold pageSize; omega)
      have hkk : k % pageSize = k := Nat.mod_eq_of_lt (by unfold pageSize; omega)
      rw [hzero] at hnone'
      rw [byteAt, hk0, hkk, pageAt, hnone', ← diskPage_inline hflag]
      exact (if_pos (by omega)).symm
    · rw [if_neg hinline]
      generalize hread : ino.readPage fs ((base + n) / pageSize) current = r
      obtain ⟨p, current', ino₁⟩ := r
      -- an inline file has its one page in the cache
      have hcase : ino.pages[(base + n) / pageSize]? = none →
          ino.inodeOnDisk.hasInlineData = false := by
        intro hnone
        by_contra hflag
        rw [Bool.not_eq_false] at hflag
        have hle : ino.getSize ≤ 60 := ho.ordered.inlineSize hflag
        exact hinline ⟨by rw [hnone]; rfl, Nat.div_eq_of_lt (by unfold pageSize; omega), hflag⟩
      obtain ⟨hintact, hdata, hdisk, hfollow'⟩ := readPage_intact ho hs hpos hfollow hcase hread
      dsimp only
      have hmod := Nat.mod_lt (base + n) (show 0 < pageSize by decide)
      generalize hcopy : min (min (rbufLen - n) (pageSize - (base + n) % pageSize))
        (ino.getSize - (n + base)) = k
      rw [slice_eq_bytesFrom hdata (by omega), bytesFrom_append, length_bytesFrom]
      by_cases hend : ino.getSize ≤ n + k + base
      · rw [if_pos hend]
        have hmin : min rbufLen (ino.getSize - base) = n + k := by omega
        exact ⟨ino₁, by rw [hmin], hintact⟩
      · rw [if_neg hend]
        by_cases hfull : n + k = rbufLen
        · have hmin : min rbufLen (ino.getSize - base) = n + k := by omega
          exact ⟨ino₁, by rw [readLoop_full (by rw [length_bytesFrom]; omega), hmin], hintact⟩
        · have hpage : (base + n) % pageSize + k = pageSize := by omega
          obtain ⟨hdiv, hzero⟩ := next_page hpage
          have hsize₁ : ino₁.getSize = ino.getSize := hintact.kept.size
          obtain ⟨ino', hloop, hintact'⟩ := @ih ino₁ (n + k) current' (hdisk ▸ ho) hintact.sane
            (by omega) (by
              rw [hdisk, ← Nat.add_assoc, hdiv]
              exact hfollow'.mono (Nat.le_succ _)) (by omega) (by omega)
          rw [← Nat.add_assoc, hdiv, hzero, hsize₁, hintact.bytesFrom, hintact.bytesFrom] at hloop
          exact ⟨ino', hloop, hintact.trans hintact'⟩

/-- **`read`** returns the bytes of the file, and leaves them as they are. -/
theorem read_contents (ho : Owns R fs ino.inodeOnDisk) (hs : ino.Sane fs) (off n : ℕ) :
    ∃ ino', ino.read fs off n = some (Contents.read off n (ino.fileBytes fs), ino') ∧
      ino'.inodeOnDisk = ino.inodeOnDisk ∧ ino.Intact fs ino' fs := by
  have hread : Contents.read off n (ino.fileBytes fs) =
      ino.bytesFrom fs off (min n (ino.getSize - off)) := Contents.read_tabulate
  rw [hread]
  suffices h : ∃ ino', ino.read fs off n =
      some (ino.bytesFrom fs off (min n (ino.getSize - off)), ino') ∧ ino.Intact fs ino' fs by
    obtain ⟨ino', heq, hintact⟩ := h
    exact ⟨ino', heq, read_inodeOnDisk heq, hintact⟩
  unfold Ext4Inode.read
  dsimp only
  rw [hs.sizeLo]
  by_cases hlt : ino.getSize ≤ off
  · rw [if_pos hlt, Nat.sub_eq_zero_of_le hlt, Nat.min_zero]
    exact ⟨ino, rfl, .refl hs⟩
  · rw [if_neg hlt]
    exact readLoop_contents (n := 0) ho hs (by omega) (.none _ _ _) (Nat.zero_le _) (by omega)

end Ext4Inode

end QuackOS.Ext4
