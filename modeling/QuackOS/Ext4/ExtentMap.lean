import QuackOS.Ext4.Ownership
import QuackOS.Lib.Intervals

/-!
# The map an extent tree stands for

An extent tree maps logical blocks to physical blocks (`physicalAt`).  What insertion and
truncation make of the map, and when that is what a caller asks for.

* `TruncatedTo`, `truncateExtents_iff` — a cut gives up the blocks from `n` on when an extent of a
  leaf root starts at `n`, or when there is nothing to give up;
* `Inserts`, `insertions_iff` — an insertion adds its run to the map as long as the root is a leaf
  with a free slot, or has an extent that the run really follows.
-/

namespace QuackOS.Ext4

open Ext4ExtentBlock Intervals

/-! ## Extents as intervals -/

namespace Ext4Extent

variable {e : Ext4Extent} {l : UInt32}

/-- The first logical block of an extent. -/
def first (e : Ext4Extent) : ℕ := e.logicalBlock.toNat

/-- The logical block behind an extent. -/
def stop (e : Ext4Extent) : ℕ := e.first + e.len.toNat

/-- An extent whose end is a block number covers the blocks of its interval. -/
theorem covers_iff (h : e.stop < 2 ^ 32) :
    e.covers l = true ↔ e.first ≤ l.toNat ∧ l.toNat < e.stop := by
  unfold stop first at *
  simp only [covers, Bool.and_eq_true, decide_eq_true_eq, UInt32.le_iff_toNat_le,
    UInt32.lt_iff_toNat_lt, UInt32.toNat_add, UInt16.toNat_toUInt32]
  rw [Nat.mod_eq_of_lt h]

/-- An extent up to the last block there is covers nothing: its end wraps around to 0. -/
theorem covers_of_stop_eq (h : e.stop = 2 ^ 32) : e.covers l = false := by
  unfold stop first at *
  simp only [covers, Bool.and_eq_false_imp, decide_eq_true_eq, decide_eq_false_iff_not,
    UInt32.lt_iff_toNat_lt, UInt32.toNat_add, UInt16.toNat_toUInt32, h]
  omega

/-- The extents of a leaf: in order, none empty, their ends block numbers. -/
structure Ordered (es : List Ext4Extent) : Prop where
  inOrder : InOrder first stop es
  nonempty : ∀ e ∈ es, 0 < e.len.toNat
  stop_lt : ∀ e ∈ es, e.stop < 2 ^ 32

theorem Ordered.first_lt {es : List Ext4Extent} (h : Ordered es) : ∀ e ∈ es, e.first < e.stop :=
  fun e he => by
    have := h.nonempty e he
    unfold stop
    omega

end Ext4Extent

namespace Ext4InodeDisk

open Ext4Extent (first stop)

variable {d d' : Ext4InodeDisk} {fs fs' : Ext4FileSystem} {l : UInt32}

/-- The physical block a logical block is mapped to. -/
def physicalAt (d : Ext4InodeDisk) (fs : Ext4FileSystem) (l : UInt32) : Option ℕ :=
  (d.lookupExtent fs l).map fun e => fsBlockIdOf e l

theorem physicalAt_eq_none : d.physicalAt fs l = none ↔ d.lookupExtent fs l = none :=
  Option.map_eq_none_iff

theorem lookupExtent_root (hdepth : (extentHeader d.block).depth = 0) :
    d.lookupExtent fs l = (extents d.block).find? fun e => e.covers l :=
  lookupExtent_leaf hdepth l

/-- A leaf finds the extent whose interval holds the block. -/
theorem lookupExtent_eq_some_iff (hdepth : (extentHeader d.block).depth = 0)
    (h : Ext4Extent.Ordered (extents d.block)) {e : Ext4Extent} :
    d.lookupExtent fs l = some e ↔
      e ∈ extents d.block ∧ e.first ≤ l.toNat ∧ l.toNat < e.stop := by
  rw [lookupExtent_root hdepth]
  exact h.inOrder.find?_eq_some_iff fun b hb => Ext4Extent.covers_iff (h.stop_lt b hb)

theorem lookupExtent_eq_none_iff (hdepth : (extentHeader d.block).depth = 0)
    (h : Ext4Extent.Ordered (extents d.block)) :
    d.lookupExtent fs l = none ↔
      ∀ e ∈ extents d.block, ¬ (e.first ≤ l.toNat ∧ l.toNat < e.stop) := by
  rw [Option.eq_none_iff_forall_ne_some]
  simp only [ne_eq, lookupExtent_eq_some_iff hdepth h, not_and]

theorem physicalAt_eq_some_iff (hdepth : (extentHeader d.block).depth = 0)
    (h : Ext4Extent.Ordered (extents d.block)) {x : ℕ} :
    d.physicalAt fs l = some x ↔
      ∃ e ∈ extents d.block, (e.first ≤ l.toNat ∧ l.toNat < e.stop) ∧
        e.physicalStartBlock + (l.toNat - e.first) = x := by
  rw [physicalAt, Option.map_eq_some_iff]
  simp only [lookupExtent_eq_some_iff hdepth h, and_assoc, fsBlockIdOf]
  refine exists_congr fun e => and_congr_right fun _ => and_congr_right fun hfirst => ?_
  refine and_congr_right fun _ => ?_
  unfold first at *
  omega

/-! ## Truncation -/

/-- `new_block_count as u32 - extents[truncate_index].logical_block` in `truncate_extents`
underflows. -/
def truncateUnderflows (b : Buffer) (newBlockCount : ℕ) : Prop :=
  ¬ 0 < (extentHeader b).depth ∧ newBlockCount ≠ 0 ∧
    match (extents b).findIdx? fun e => UInt32.ofNat newBlockCount ≤ e.logicalBlock with
    | none => False
    | some i => UInt32.ofNat newBlockCount < (Ext4Extent.read b (12 + 12 * i)).logicalBlock

/-- Extents in order, none of them empty, at any depth. -/
def WellFormed (d : Ext4InodeDisk) (fs : Ext4FileSystem) : Prop :=
  Ext4Extent.Ordered (d.iterAllExtents fs)

theorem WellFormed.root (h : d.WellFormed fs) (hdepth : (extentHeader d.block).depth = 0) :
    Ext4Extent.Ordered (extents d.block) := by
  rwa [WellFormed, Ext4InodeDisk.iterAllExtents, maxDepth_eq, iterAllExtents_leaf hdepth] at h

/-- `truncate_extents(n)` does what it is for: the blocks from `n` on are mapped no more, and the
others as before. -/
structure TruncatedTo (fs : Ext4FileSystem) (d d' : Ext4InodeDisk) (n : ℕ) : Prop where
  gone : ∀ l : UInt32, n ≤ l.toNat → d'.lookupExtent fs l = none
  kept : ∀ l : UInt32, l.toNat < n → d'.physicalAt fs l = d.physicalAt fs l

/-- A cut without remainder: at the start of an extent of a leaf root, or behind everything that
is mapped.  Block numbers are cut down to 32 bits before they are compared. -/
def CutsClean (d : Ext4InodeDisk) (fs : Ext4FileSystem) (n : ℕ) : Prop :=
  (extentHeader d.block).depth = 0 ∧
      (n = 0 ∨ n < 2 ^ 32 ∧ ∃ e ∈ extents d.block, e.first = n) ∨
    (∀ l : UInt32, n ≤ l.toNat → d.lookupExtent fs l = none) ∧
      ((extentHeader d.block).depth = 0 → 2 ^ 32 ≤ n →
        ∀ e ∈ extents d.block, e.first < n % 2 ^ 32)

theorem TruncatedTo.of_same {n : ℕ} (h : ∀ l : UInt32, n ≤ l.toNat → d.lookupExtent fs l = none) :
    TruncatedTo fs d d n := ⟨h, fun _ _ => rfl⟩

/-- The extents of a leaf root that `truncate_extents` drops: from the first one on that starts
at or after the new end. -/
theorem truncateExtents_some (hdepth : (extentHeader d.block).depth = 0) {n i : ℕ} (hn : n ≠ 0)
    (hi : (extents d.block).findIdx? (fun e => UInt32.ofNat n ≤ e.logicalBlock) = some i) :
    ∃ hlt : i < (extents d.block).length,
      extents (truncateExtents d.block n) = (extents d.block).take i ∧
      n % 2 ^ 32 ≤ (extents d.block)[i].first ∧
      (∀ e ∈ (extents d.block).take i, e.first < n % 2 ^ 32) ∧
      (truncateUnderflows d.block n ↔ n % 2 ^ 32 < (extents d.block)[i].first) := by
  obtain ⟨hlt, hge, hbefore⟩ := List.findIdx?_eq_some_iff_getElem.mp hi
  have hleaf : ¬ 0 < (extentHeader d.block).depth := by
    rw [hdepth]
    decide
  have hread : Ext4Extent.read d.block (12 + 12 * i) = (extents d.block)[i] := by
    simp [extents]
  refine ⟨hlt, ?_, ?_, fun e he => ?_, ?_⟩
  · unfold truncateExtents
    dsimp only
    have hentries : (UInt16.ofNat i).toNat = i := by
      have := (extentHeader d.block).entries.toNat_lt
      rw [length_extents] at hlt
      simp only [UInt16.toNat_ofNat']
      omega
    rw [if_neg hleaf, if_neg hn, hi]
    dsimp only
    rw [extents_writeSlot, extents_write, hentries, List.set_eq_of_length_le (by simp)]
    refine List.ext_getElem (by simpa using hlt.le) fun j h1 h2 => ?_
    simp [extents]
  · simpa [first, UInt32.le_iff_toNat_le] using hge
  · obtain ⟨j, hj, rfl⟩ := List.mem_take_iff_getElem.mp he
    have := hbefore j (by omega)
    simpa [first, UInt32.le_iff_toNat_le, UInt32.lt_iff_toNat_lt] using this
  · unfold truncateUnderflows
    rw [hi, ← hread]
    simp [hleaf, hn, first, UInt32.lt_iff_toNat_lt]

/-- A root that `truncate_extents` leaves as it is. -/
theorem truncateExtents_same {n : ℕ} (h : truncateExtents d.block n = d.block)
    (hflow : ¬ truncateUnderflows d.block n) :
    (TruncatedTo fs d { d with block := truncateExtents d.block n } n ∧
      ¬ truncateUnderflows d.block n) ↔ ∀ l : UInt32, n ≤ l.toNat → d.lookupExtent fs l = none := by
  rw [h]
  exact ⟨fun hT => hT.1.gone, fun hgone => ⟨.of_same hgone, hflow⟩⟩

/-- A cut of a leaf root at an extent that starts at or after the new end. -/
theorem truncateExtents_cut (hdepth : (extentHeader d.block).depth = 0)
    (hord : Ext4Extent.Ordered (extents d.block)) {n i : ℕ} (hn : n ≠ 0)
    (hi : (extents d.block).findIdx? (fun e => UInt32.ofNat n ≤ e.logicalBlock) = some i) :
    (TruncatedTo fs d { d with block := truncateExtents d.block n } n ∧
      ¬ truncateUnderflows d.block n) ↔ n < 2 ^ 32 ∧ ∃ e ∈ extents d.block, e.first = n := by
  obtain ⟨hlt, hextents, hge, hbefore, hflow⟩ := truncateExtents_some hdepth hn hi
  set d' : Ext4InodeDisk := { d with block := truncateExtents d.block n } with hd'
  have hdepth' : (extentHeader d'.block).depth = 0 := by
    rw [hd', depth_truncateExtents]
    exact hdepth
  have hmem : ∀ e, e ∈ extents d'.block ↔ e ∈ extents d.block ∧ e.first < n % 2 ^ 32 :=
    fun e => hextents ▸ hord.inOrder.mem_take_iff hord.first_lt hlt hge hbefore
  have hord' : Ext4Extent.Ordered (extents d'.block) := by
    refine ⟨?_, fun e he => hord.nonempty e ((hmem e).mp he).1,
      fun e he => hord.stop_lt e ((hmem e).mp he).1⟩
    rw [hextents]
    exact List.Pairwise.sublist (List.take_sublist ..) hord.inOrder
  set e := (extents d.block)[i] with he
  have hein : e ∈ extents d.block := List.getElem_mem hlt
  have hefirst : e.first < e.stop := hord.first_lt e hein
  rw [hflow]
  constructor
  · rintro ⟨hT, hnot⟩
    have hstart : e.first = n % 2 ^ 32 := by omega
    have hsmall : n < 2 ^ 32 := by
      by_contra hbig
      -- the block `n % 2 ^ 32` is below `n` and mapped no more
      have hl : (UInt32.ofNat n).toNat = e.first := by rw [UInt32.toNat_ofNat', hstart]
      have hkept := hT.kept (UInt32.ofNat n) (by omega)
      have hsome : d.physicalAt fs (UInt32.ofNat n) = some (e.physicalStartBlock + 0) := by
        rw [physicalAt_eq_some_iff hdepth hord]
        exact ⟨e, hein, by omega, by omega⟩
      rw [hsome, physicalAt_eq_some_iff hdepth' hord'] at hkept
      obtain ⟨f, hf, hfl, -⟩ := hkept
      obtain ⟨hfin, hfirst⟩ := (hmem f).mp hf
      have := hord.inOrder.hi_le hord.first_lt hfin hein (by omega)
      omega
    exact ⟨hsmall, e, hein, by omega⟩
  · rintro ⟨hsmall, f, hf, hfn⟩
    rw [Nat.mod_eq_of_lt hsmall] at hge hmem ⊢
    have hstart : e.first = n := by
      rcases Nat.eq_or_lt_of_le hge with heq | hlt'
      · exact heq.symm
      · have hnot : f ∉ (extents d.block).take i := fun hmem' => by
          have := hbefore f hmem'
          omega
        have hnext : f.first + 1 ≤ e.first := by omega
        rw [hord.inOrder.mem_take_iff hord.first_lt hlt hnext] at hnot
        · exact absurd ⟨hf, by omega⟩ hnot
        · exact fun b hb => by
            have := hbefore b hb
            omega
    refine ⟨⟨fun l hl => ?_, fun l hl => Option.ext fun x => ?_⟩, by omega⟩
    · rw [lookupExtent_eq_none_iff hdepth' hord']
      intro g hg hgl
      obtain ⟨hgin, hgn⟩ := (hmem g).mp hg
      have := hord.inOrder.hi_le hord.first_lt hgin hein (by omega)
      omega
    · rw [physicalAt_eq_some_iff hdepth' hord', physicalAt_eq_some_iff hdepth hord]
      refine exists_congr fun g => ?_
      rw [hmem, and_assoc]
      refine and_congr_right fun _ => ?_
      exact ⟨fun h => h.2, fun h => ⟨by omega, h⟩⟩

/-- **A cut gives up the blocks from `n` on, and only these, exactly when it is clean.**  An
extent that starts before `n` and goes on past it is left whole. -/
theorem truncateExtents_iff (hwf : d.WellFormed fs) (n : ℕ) :
    (TruncatedTo fs d { d with block := truncateExtents d.block n } n ∧
      ¬ truncateUnderflows d.block n) ↔ d.CutsClean fs n := by
  by_cases hdepth : (extentHeader d.block).depth = 0
  · have hleaf : ¬ 0 < (extentHeader d.block).depth := by
      rw [hdepth]
      decide
    have hord := hwf.root hdepth
    by_cases hn : n = 0
    · refine iff_of_true ⟨⟨fun l _ => ?_, fun l hl => by omega⟩, fun h => h.2.1 hn⟩
        (Or.inl ⟨hdepth, Or.inl hn⟩)
      rw [lookupExtent_root (by rw [depth_truncateExtents]; exact hdepth)]
      unfold truncateExtents
      simp only [if_neg hleaf, if_pos hn, extents_write]
      simp
    · cases hi : (extents d.block).findIdx? fun e => UInt32.ofNat n ≤ e.logicalBlock with
      | none =>
        have hbefore : ∀ e ∈ extents d.block, e.first < n % 2 ^ 32 := fun e he => by
          have := List.findIdx?_eq_none_iff.mp hi e he
          simpa [first, UInt32.le_iff_toNat_le] using this
        have hsame : truncateExtents d.block n = d.block := by
          unfold truncateExtents
          simp only [if_neg hleaf, if_neg hn, hi]
        have hflow : ¬ truncateUnderflows d.block n := by
          unfold truncateUnderflows
          rw [hi]
          simp
        rw [truncateExtents_same hsame hflow]
        constructor
        · exact fun hgone => Or.inr ⟨hgone, fun _ _ => hbefore⟩
        · rintro (⟨-, h0 | ⟨hsmall, e, he, heq⟩⟩ | ⟨hgone, -⟩)
          · exact absurd h0 hn
          · have := hbefore e he
            rw [Nat.mod_eq_of_lt hsmall] at this
            omega
          · exact hgone
      | some i =>
        obtain ⟨hlt, -, hge, -⟩ := truncateExtents_some hdepth hn hi
        rw [truncateExtents_cut hdepth hord hn hi]
        have hein : (extents d.block)[i] ∈ extents d.block := List.getElem_mem hlt
        constructor
        · exact fun h => Or.inl ⟨hdepth, Or.inr h⟩
        · rintro (⟨-, h0 | h⟩ | ⟨hgone, hbig⟩)
          · exact absurd h0 hn
          · exact h
          · exfalso
            rcases Nat.lt_or_ge n (2 ^ 32) with hsmall | hlarge
            · -- the extent covers its own first block, which is at `n` or behind it
              rw [Nat.mod_eq_of_lt hsmall] at hge
              have hnone := hgone (extents d.block)[i].logicalBlock hge
              rw [lookupExtent_eq_none_iff hdepth hord] at hnone
              exact hnone _ hein ⟨le_rfl, hord.first_lt _ hein⟩
            · have := hbig hdepth hlarge _ hein
              omega
  · have hinner : 0 < (extentHeader d.block).depth := UInt16.pos_iff_ne_zero.mpr hdepth
    have hsame : truncateExtents d.block n = d.block := by
      unfold truncateExtents
      simp only [if_pos hinner]
    rw [truncateExtents_same hsame fun h => h.1 hinner]
    constructor
    · exact fun hgone => Or.inr ⟨hgone, fun h0 => absurd h0 hdepth⟩
    · rintro (⟨h0, -⟩ | ⟨hgone, -⟩)
      · exact absurd h0 hdepth
      · exact hgone

/-- The root of a file whose one extent maps ten blocks. -/
def tenBlocks : Ext4InodeDisk :=
  ⟨40960, 1, true, false, (Ext4Extent.new 0 10 100).write
    ({ Ext4ExtentHeader.newRoot with entries := 1 }.write fun _ => 0) 12⟩

theorem tenBlocks_extents : (extentHeader tenBlocks.block).depth = 0 ∧
    extents tenBlocks.block = [Ext4Extent.new 0 10 100] :=
  ⟨by decide, by decide⟩

theorem tenBlocks_wellFormed (fs : Ext4FileSystem) : tenBlocks.WellFormed fs := by
  rw [WellFormed, Ext4InodeDisk.iterAllExtents, maxDepth_eq,
    iterAllExtents_leaf tenBlocks_extents.1, tenBlocks_extents.2]
  exact ⟨List.pairwise_singleton _ _, by decide, by decide⟩

theorem truncateExtents_iff_tenBlocks : tenBlocks.WellFormed oneGroup ∧
    ((TruncatedTo oneGroup tenBlocks
        { tenBlocks with block := truncateExtents tenBlocks.block 0 } 0 ∧
      ¬ truncateUnderflows tenBlocks.block 0) ↔ tenBlocks.CutsClean oneGroup 0) :=
  ⟨tenBlocks_wellFormed _, truncateExtents_iff (tenBlocks_wellFormed _) 0⟩

/-- Cut to five blocks, the file still maps its eighth. -/
theorem tenBlocks_cut_within : tenBlocks.WellFormed oneGroup ∧
    ¬ TruncatedTo oneGroup tenBlocks
      { tenBlocks with block := truncateExtents tenBlocks.block 5 } 5 := by
  refine ⟨tenBlocks_wellFormed _, fun h => ?_⟩
  have hgone := h.gone 7 (by decide)
  rw [lookupExtent_root (by decide)] at hgone
  revert hgone
  decide

/-! ## Insertion -/

/-- The arguments of a call of `insert_extent`: `count` blocks from logical block `logical` on are
to be mapped to those from `physical` on. -/
structure Insertion where
  logical : UInt32
  physical : ℕ
  count : ℕ

namespace Insertion

variable (c : Insertion)

/-- The logical blocks are those from `first` up to `stop`. -/
def first : ℕ := c.logical.toNat

def stop : ℕ := c.first + c.count

/-- Physical block numbers have 48 bits, runs up to 32768 blocks, and logical block numbers 32
bits. -/
structure Fits : Prop where
  physical : c.physical < 2 ^ 48
  count_pos : 0 < c.count
  count_le : c.count ≤ 32768
  stop_le : c.stop ≤ 2 ^ 32

end Insertion

/-- A call of `insert_extent` on an inode, whatever it returns. -/
def insertStep (s : Ext4InodeDisk × Ext4FileSystem) (c : Insertion) :
    Option (Ext4InodeDisk × Ext4FileSystem) :=
  (s.1.insertExtent c.logical c.physical (UInt32.ofNat c.count) s.2).map fun r => r.2

/-- If the call returns `Ok`, the run is in the map and everything else in it is as before. -/
def Inserts (s : Ext4InodeDisk × Ext4FileSystem) (c : Insertion) : Prop :=
  ∀ d' fs', s.1.insertExtent c.logical c.physical (UInt32.ofNat c.count) s.2 =
      some (.ok (), d', fs') →
    ∀ l : UInt32, d'.physicalAt fs' l =
      if c.first ≤ l.toNat ∧ l.toNat < c.stop then some (c.physical + (l.toNat - c.first))
      else s.1.physicalAt s.2 l

/-- An insertion the tree can take: the root is a leaf, and the run follows one of its extents on
the device, too, not only in the low 32 bits of the block number, or follows none and finds a free
slot; and it stops short of the last logical block.  Where there is no slot left, the run starts
before everything in the tree, and the call returns an error. -/
def Insertable (s : Ext4InodeDisk × Ext4FileSystem) (c : Insertion) : Prop :=
  if (extentHeader s.1.block).depth = 0 then
    match (extents s.1.block).find? fun e => e.mergesWith c.logical c.physical with
    | some e => e.physicalStartBlock + e.len.toNat = c.physical ∧ c.stop < 2 ^ 32
    | none =>
      if (extentHeader s.1.block).entries = (extentHeader s.1.block).max then
        ∀ e ∈ extents s.1.block, c.logical < e.logicalBlock
      else c.stop < 2 ^ 32
  else ∀ idx ∈ extentIdxs s.1.block, c.logical < idx.block

/-- The state between the calls: a leaf root is in order and has a slot for each of up to four
extents, and the runs to come are not mapped. -/
structure Built (s : Ext4InodeDisk × Ext4FileSystem) (cs : List Insertion) : Prop where
  sound : s.2.Sound
  leaf : (extentHeader s.1.block).depth = 0 → Ext4Extent.Ordered (extents s.1.block) ∧
    (extentHeader s.1.block).max = 4 ∧ (extentHeader s.1.block).entries ≤ 4
  fits : ∀ c ∈ cs, c.Fits
  apart : cs.Pairwise (Apart Insertion.first Insertion.stop)
  unmapped : ∀ c ∈ cs, ∀ l : UInt32, c.first ≤ l.toNat → l.toNat < c.stop →
    s.1.lookupExtent s.2 l = none

namespace Insertion

variable {c : Insertion}

/-- The extent a run becomes. -/
def extent (c : Insertion) : Ext4Extent :=
  Ext4Extent.new c.logical (UInt32.ofNat c.count).toUInt16 c.physical

theorem Fits.len (h : c.Fits) : (UInt32.ofNat c.count).toUInt16.toNat = c.count := by
  have := h.count_le
  simp only [UInt32.toNat_toUInt16, UInt32.toNat_ofNat']
  omega

theorem extent_first (c : Insertion) : c.extent.first = c.first := rfl

theorem Fits.extent_stop (h : c.Fits) : c.extent.stop = c.stop :=
  congrArg (c.first + ·) h.len

theorem Fits.extent_physical (h : c.Fits) : c.extent.physicalStartBlock = c.physical :=
  Ext4Extent.physicalStartBlock_new _ _ h.physical

theorem Fits.first_lt (h : c.Fits) : c.first < c.stop := Nat.lt_add_of_pos_right h.count_pos

end Insertion

/-- An extent that a run is added to. -/
def grown (e : Ext4Extent) (c : Insertion) : Ext4Extent :=
  { e with len := e.len + (UInt32.ofNat c.count).toUInt16 }

section Merge

variable {c : Insertion} {e : Ext4Extent}

/-- A run added to an extent starts at its end. -/
theorem merges_first (hm : e.mergesWith c.logical c.physical = true) (hstop : e.stop < 2 ^ 32) :
    c.first = e.stop := by
  simp only [Ext4Extent.mergesWith, Bool.and_eq_true, beq_iff_eq] at hm
  have := congrArg UInt32.toNat hm.1.1
  rw [UInt32.toNat_add, UInt16.toNat_toUInt32] at this
  unfold Ext4Extent.stop Ext4Extent.first at *
  unfold Insertion.first
  omega

/-- The length of a grown extent still has 16 bits. -/
theorem grown_stop (hc : c.Fits) (hm : e.mergesWith c.logical c.physical = true) :
    (grown e c).stop = e.stop + c.count := by
  simp only [Ext4Extent.mergesWith, Bool.and_eq_true, decide_eq_true_eq,
    UInt16.lt_iff_toNat_lt] at hm
  have hlen : e.len.toNat < 32768 := hm.2
  have hcount := hc.count_le
  have hgrown : (e.len + (UInt32.ofNat c.count).toUInt16).toNat = e.len.toNat + c.count := by
    rw [UInt16.toNat_add, hc.len]
    omega
  show e.first + (e.len + (UInt32.ofNat c.count).toUInt16).toNat = e.first + e.len.toNat + c.count
  omega

end Merge

/-- What is mapped by a leaf root that got a run more. -/
theorem physicalAt_of_added {c : Insertion} (hdepth : (extentHeader d.block).depth = 0)
    (hord : Ext4Extent.Ordered (extents d.block)) (hdepth' : (extentHeader d'.block).depth = 0)
    (hord' : Ext4Extent.Ordered (extents d'.block))
    (hfree : ∀ l : UInt32, c.first ≤ l.toNat → l.toNat < c.stop → d.lookupExtent fs l = none)
    (hmem : ∀ (l : UInt32) (x : ℕ), (∃ e ∈ extents d'.block,
        (e.first ≤ l.toNat ∧ l.toNat < e.stop) ∧ e.physicalStartBlock + (l.toNat - e.first) = x) ↔
      ((c.first ≤ l.toNat ∧ l.toNat < c.stop) ∧ c.physical + (l.toNat - c.first) = x) ∨
        ∃ e ∈ extents d.block, (e.first ≤ l.toNat ∧ l.toNat < e.stop) ∧
          e.physicalStartBlock + (l.toNat - e.first) = x) (l : UInt32) :
    d'.physicalAt fs l =
      if c.first ≤ l.toNat ∧ l.toNat < c.stop then some (c.physical + (l.toNat - c.first))
      else d.physicalAt fs l := by
  refine Option.ext fun x => ?_
  have hbefore : d.physicalAt fs l = some x ↔ _ := physicalAt_eq_some_iff hdepth hord
  rw [physicalAt_eq_some_iff hdepth' hord', hmem, ← hbefore]
  split_ifs with hin
  · have hnone := physicalAt_eq_none.mpr (hfree l hin.1 hin.2)
    rw [hnone]
    simp [hin]
  · simp [hin]

section Step

variable {s : Ext4InodeDisk × Ext4FileSystem} {c : Insertion} {cs : List Insertion}

theorem Built.lookup_logical (h : Built s (c :: cs)) : s.1.lookupExtent s.2 c.logical = none :=
  h.unmapped c (List.mem_cons_self ..) c.logical le_rfl
    (h.fits c (List.mem_cons_self ..)).first_lt

/-- The run meets no extent of a leaf root. -/
theorem Built.meets_none (h : Built s (c :: cs)) (hdepth : (extentHeader s.1.block).depth = 0)
    {e : Ext4Extent} (he : e ∈ extents s.1.block) :
    Apart Ext4Extent.first Ext4Extent.stop e c.extent := by
  obtain ⟨hord, -⟩ := h.leaf hdepth
  have hc := h.fits c (List.mem_cons_self ..)
  unfold Apart
  rw [Insertion.extent_first, hc.extent_stop]
  by_contra hmeet
  push Not at hmeet
  have hfirst := hord.first_lt e he
  rcases Nat.le_total c.first e.first with hle | hle
  · have hnone := h.unmapped c (List.mem_cons_self ..) e.logicalBlock hle hmeet.2
    rw [lookupExtent_eq_none_iff hdepth hord] at hnone
    exact hnone e he ⟨le_rfl, hfirst⟩
  · have hnone := h.lookup_logical
    rw [lookupExtent_eq_none_iff hdepth hord] at hnone
    exact hnone e he ⟨hle, hmeet.1⟩

/-- No extent of a leaf root covers the first block of the run. -/
theorem Built.covers_none (h : Built s (c :: cs)) (hdepth : (extentHeader s.1.block).depth = 0)
    {e : Ext4Extent} (he : e ∈ extents s.1.block) : e.covers c.logical = false := by
  have hnone := h.lookup_logical
  rw [lookupExtent_root hdepth, List.find?_eq_none] at hnone
  simpa using hnone e he

section Merged

variable {i : ℕ} {e : Ext4Extent} {root : Buffer}

theorem Built.merged_ordered (h : Built s (c :: cs)) (hdepth : (extentHeader s.1.block).depth = 0)
    (hget : (extents s.1.block)[i]? = some e) (hm : e.mergesWith c.logical c.physical = true)
    (hextents : extents root = (extents s.1.block).set i (grown e c)) (hstop : c.stop < 2 ^ 32) :
    Ext4Extent.Ordered (extents root) := by
  obtain ⟨hord, -⟩ := h.leaf hdepth
  have hc := h.fits c (List.mem_cons_self ..)
  have hein : e ∈ extents s.1.block := List.mem_of_getElem? hget
  have hfirst := merges_first hm (hord.stop_lt e hein)
  have hgrown : (grown e c).stop = c.stop := by
    rw [grown_stop hc hm, ← hfirst]
    rfl
  rw [hextents]
  refine ⟨hord.inOrder.set hget rfl fun b hb hle => ?_, fun b hb => ?_, fun b hb => ?_⟩
  · have hb' := hord.first_lt b hb
    have hapart := h.meets_none hdepth hb
    unfold Apart at hapart
    rw [Insertion.extent_first, hc.extent_stop] at hapart
    omega
  · rcases List.mem_or_eq_of_mem_set hb with hb | rfl
    · exact hord.nonempty b hb
    · have := hord.first_lt e hein
      have hlen : (grown e c).stop = e.first + (grown e c).len.toNat := rfl
      have := hc.first_lt
      omega
  · rcases List.mem_or_eq_of_mem_set hb with hb | rfl
    · exact hord.stop_lt b hb
    · rw [hgrown]
      exact hstop

/-- An extent that takes the run in maps it when it ends right before it on the device. -/
theorem Built.inserts_merged_iff (h : Built s (c :: cs))
    (hdepth : (extentHeader s.1.block).depth = 0) (hget : (extents s.1.block)[i]? = some e)
    (hm : e.mergesWith c.logical c.physical = true)
    (hheader : extentHeader root = extentHeader s.1.block)
    (hextents : extents root = (extents s.1.block).set i (grown e c)) :
    (∀ l : UInt32, { s.1 with block := root }.physicalAt s.2 l =
        if c.first ≤ l.toNat ∧ l.toNat < c.stop then some (c.physical + (l.toNat - c.first))
        else s.1.physicalAt s.2 l) ↔
      e.physicalStartBlock + e.len.toNat = c.physical ∧ c.stop < 2 ^ 32 := by
  obtain ⟨hord, -⟩ := h.leaf hdepth
  have hc := h.fits c (List.mem_cons_self ..)
  have hein : e ∈ extents s.1.block := List.mem_of_getElem? hget
  have hfirst := merges_first hm (hord.stop_lt e hein)
  have hlt := hord.first_lt e hein
  have hgrown : (grown e c).stop = c.stop := by
    rw [grown_stop hc hm, ← hfirst]
    rfl
  have hdepth' : (extentHeader { s.1 with block := root }.block).depth = 0 := by
    rw [hheader]
    exact hdepth
  have hcfirst : c.first ≤ c.logical.toNat ∧ c.logical.toNat < c.stop := ⟨le_rfl, hc.first_lt⟩
  have hlen : e.stop = e.first + e.len.toNat := rfl
  constructor
  · intro hlaw
    have hat := hlaw c.logical
    rw [if_pos hcfirst] at hat
    have hstop : c.stop < 2 ^ 32 := by
      by_contra hbig
      -- the extent now ends at the last block, and no lookup finds it
      have hle := hc.stop_le
      obtain ⟨f, hf, -⟩ := Option.map_eq_some_iff.mp hat
      rw [lookupExtent_root hdepth'] at hf
      have hcov := List.find?_some hf
      have hfin := List.mem_of_find?_eq_some hf
      rw [hextents] at hfin
      rcases List.mem_or_eq_of_mem_set hfin with hfin | rfl
      · rw [h.covers_none hdepth hfin] at hcov
        cases hcov
      · rw [Ext4Extent.covers_of_stop_eq (by omega)] at hcov
        cases hcov
    refine ⟨?_, hstop⟩
    rw [physicalAt_eq_some_iff hdepth' (h.merged_ordered hdepth hget hm hextents hstop)] at hat
    obtain ⟨f, hf, hfl, hfp⟩ := hat
    have hnew : grown e c ∈ extents root := by
      rw [hextents]
      obtain ⟨hi, -⟩ := List.getElem?_eq_some_iff.mp hget
      exact List.mem_set hi _
    have hsame := (h.merged_ordered hdepth hget hm hextents hstop).inOrder.unique hf hnew hfl
      ⟨show e.first ≤ c.first by omega, by rw [hgrown]; exact hc.first_lt⟩
    rw [hsame] at hfp
    have hphys : e.physicalStartBlock + (c.first - e.first) = c.physical + (c.first - c.first) :=
      hfp
    omega
  · rintro ⟨hphys, hstop⟩
    refine physicalAt_of_added hdepth hord hdepth'
      (h.merged_ordered hdepth hget hm hextents hstop)
      (fun l => h.unmapped c (List.mem_cons_self ..) l) fun l x => ?_
    dsimp only
    rw [hextents]
    refine Intervals.exists_mem_set_iff hget ?_
    rw [hgrown]
    show (e.first ≤ l.toNat ∧ l.toNat < c.stop) ∧ e.physicalStartBlock + (l.toNat - e.first) = x ↔ _
    omega

end Merged

section Added

variable {root : Buffer}

theorem Built.added_ordered (h : Built s (c :: cs)) (hdepth : (extentHeader s.1.block).depth = 0)
    (hperm : (extents root).Perm (extents s.1.block ++ [c.extent]))
    (hsorted : (extents root).Pairwise fun a b => a.logicalBlock ≤ b.logicalBlock)
    (hstop : c.stop < 2 ^ 32) : Ext4Extent.Ordered (extents root) := by
  obtain ⟨hord, -⟩ := h.leaf hdepth
  have hc := h.fits c (List.mem_cons_self ..)
  refine ⟨?_, fun b hb => ?_, fun b hb => ?_⟩
  · refine hord.inOrder.of_perm_append hord.first_lt ?_ (fun b hb => h.meets_none hdepth hb) hperm
      (hsorted.imp fun hab => UInt32.le_iff_toNat_le.mp hab)
    rw [hc.extent_stop]
    exact hc.first_lt
  · rcases List.mem_append.mp (hperm.mem_iff.mp hb) with hb | hb
    · exact hord.nonempty b hb
    · rw [List.mem_singleton.mp hb]
      exact hc.len ▸ hc.count_pos
  · rcases List.mem_append.mp (hperm.mem_iff.mp hb) with hb | hb
    · exact hord.stop_lt b hb
    · rw [List.mem_singleton.mp hb, hc.extent_stop]
      exact hstop

/-- A slot of its own maps the run unless it ends at the last block there is. -/
theorem Built.inserts_added_iff (h : Built s (c :: cs))
    (hdepth : (extentHeader s.1.block).depth = 0) (hdepth' : (extentHeader root).depth = 0)
    (hperm : (extents root).Perm (extents s.1.block ++ [c.extent]))
    (hsorted : (extents root).Pairwise fun a b => a.logicalBlock ≤ b.logicalBlock) :
    (∀ l : UInt32, { s.1 with block := root }.physicalAt s.2 l =
        if c.first ≤ l.toNat ∧ l.toNat < c.stop then some (c.physical + (l.toNat - c.first))
        else s.1.physicalAt s.2 l) ↔ c.stop < 2 ^ 32 := by
  obtain ⟨hord, -⟩ := h.leaf hdepth
  have hc := h.fits c (List.mem_cons_self ..)
  constructor
  · intro hlaw
    by_contra hbig
    have hat := hlaw c.logical
    rw [if_pos ⟨le_rfl, hc.first_lt⟩] at hat
    obtain ⟨f, hf, -⟩ := Option.map_eq_some_iff.mp hat
    rw [lookupExtent_root hdepth'] at hf
    have hcov := List.find?_some hf
    rcases List.mem_append.mp (hperm.mem_iff.mp (List.mem_of_find?_eq_some hf)) with hfin | hfin
    · rw [h.covers_none hdepth hfin] at hcov
      cases hcov
    · have hle := hc.stop_le
      have hstop := hc.extent_stop
      rw [List.mem_singleton.mp hfin, Ext4Extent.covers_of_stop_eq (by omega)] at hcov
      cases hcov
  · intro hstop
    refine physicalAt_of_added hdepth hord hdepth' (h.added_ordered hdepth hperm hsorted hstop)
      (fun l => h.unmapped c (List.mem_cons_self ..) l) fun l x => ?_
    simp only [hperm.mem_iff, List.mem_append, List.mem_singleton, or_and_right, exists_or,
      exists_eq_left, hc.extent_stop, hc.extent_physical, Insertion.extent_first]
    exact or_comm

end Added

/-! ### Below the root -/

/-- Below an inner root the call ends in an error exactly when the run starts before all of the
children. -/
theorem insertBelow_ok_iff {root : Buffer} {fs : Ext4FileSystem} {r : Except String Unit}
    (h : insertBelow root fs c.logical c.physical (UInt32.ofNat c.count) = some r) :
    r ≠ .ok () ↔ ∀ idx ∈ extentIdxs root, c.logical < idx.block := by
  unfold insertBelow at h
  split at h
  · rename_i idx hfind
    obtain ⟨_, -, rfl⟩ := Option.map_eq_some_iff.mp h
    have hle := List.find?_some hfind
    simp only [decide_eq_true_eq] at hle
    refine iff_of_false (fun hr => hr rfl) fun hall => ?_
    exact absurd hle (UInt32.not_le.mpr (hall idx (List.mem_of_find?_eq_some hfind)))
  · rename_i hnone
    cases h
    refine iff_of_true (by simp) fun idx hidx => ?_
    simpa using List.find?_eq_none.mp hnone idx hidx

/-- A tree none of whose extents covers a block does not map it. -/
theorem lookupExtent_eq_none_of_covers (h : ∀ e ∈ d.iterAllExtents fs, e.covers l = false) :
    d.lookupExtent fs l = none := by
  cases hl : d.lookupExtent fs l with
  | none => rfl
  | some e =>
    obtain ⟨hmem, hcov⟩ := lookupExtent_mem hl
    rw [h e hmem] at hcov
    cases hcov

section Split

variable {root : Buffer} {fs' : Ext4FileSystem}

/-- After a split the tree maps what the root mapped. -/
theorem Built.split_lookup (h : Built s cs) (hdepth : (extentHeader s.1.block).depth = 0)
    (hsplit : splitLeafBlock s.1.block s.2 = some (root, fs'))
    (hnone : s.1.lookupExtent s.2 l = none) :
    { s.1 with block := root }.lookupExtent fs' l = none := by
  obtain ⟨leftBlock, rightBlock, left, right, first, second, hs⟩ :=
    splitLeafBlock_eq_some h.sound hdepth hsplit
  obtain ⟨-, -, hfew⟩ := h.leaf hdepth
  have hlen : (extents s.1.block).length ≤ 340 := by
    rw [length_extents]
    exact (UInt16.le_iff_toNat_le.mp hfew).trans (by decide)
  refine lookupExtent_eq_none_of_covers fun e he => ?_
  rw [Ext4InodeDisk.iterAllExtents, (hs.tree h.sound hlen).1] at he
  rw [lookupExtent_root hdepth, List.find?_eq_none] at hnone
  simpa using hnone e he

/-- The two children of the root start at two of its extents, one of them its first. -/
theorem Built.split_idxs (h : Built s cs) (hdepth : (extentHeader s.1.block).depth = 0)
    (hsplit : splitLeafBlock s.1.block s.2 = some (root, fs')) :
    (∀ idx ∈ extentIdxs root, c.logical < idx.block) ↔
      ∀ e ∈ extents s.1.block, c.logical < e.logicalBlock := by
  obtain ⟨leftBlock, rightBlock, left, right, first, second, hs⟩ :=
    splitLeafBlock_eq_some h.sound hdepth hsplit
  obtain ⟨hord, -⟩ := h.leaf hdepth
  obtain ⟨rest, hleft⟩ : ∃ rest, left = first :: rest := by
    cases left with
    | nil => exact absurd hs.left (by simp)
    | cons a rest => exact ⟨rest, by rw [Option.some.inj hs.left]⟩
  have hfirst : first ∈ extents s.1.block := by
    rw [hs.extents, hleft]
    simp
  have hsecond : second ∈ extents s.1.block := by
    rw [hs.extents]
    exact List.mem_append_right _ (List.mem_of_mem_head? hs.right)
  rw [hs.idxs]
  simp only [List.mem_cons, List.not_mem_nil, or_false, forall_eq_or_imp, forall_eq,
    Ext4ExtentIdx.new]
  constructor
  · rintro ⟨hlt, -⟩ e he
    have horder := hord.inOrder
    rw [hs.extents, hleft, List.cons_append] at horder he
    rcases List.mem_cons.mp he with rfl | he
    · exact hlt
    · have hstop := (List.pairwise_cons.mp horder).1 e he
      have hne := hord.first_lt first hfirst
      rw [UInt32.lt_iff_toNat_lt] at hlt ⊢
      unfold Ext4Extent.first at *
      omega
  · exact fun hall => ⟨hall first hfirst, hall second hsecond⟩

end Split

/-! ### Runs -/

theorem Built.fits_root (h : Built s cs) (hdepth : (extentHeader s.1.block).depth = 0) :
    (extentHeader s.1.block).entries.toNat ≤ (extentHeader s.1.block).max.toNat := by
  obtain ⟨-, hmax, hfew⟩ := h.leaf hdepth
  rw [hmax]
  exact UInt16.le_iff_toNat_le.mp hfew

/-- A call that comes back does what it is for exactly when the tree can take the run. -/
theorem Built.inserts_iff (h : Built s (c :: cs)) {s' : Ext4InodeDisk × Ext4FileSystem}
    (hs' : insertStep s c = some s') : Inserts s c ↔ Insertable s c := by
  obtain ⟨⟨r, d', fs'⟩, hres, rfl⟩ := Option.map_eq_some_iff.mp hs'
  have hlaw : Inserts s c ↔ (r = .ok () → ∀ l : UInt32, d'.physicalAt fs' l =
      if c.first ≤ l.toNat ∧ l.toNat < c.stop then some (c.physical + (l.toNat - c.first))
      else s.1.physicalAt s.2 l) := by
    unfold Inserts
    rw [hres]
    constructor
    · rintro hins rfl
      exact hins d' fs' rfl
    · rintro hins d'' fs'' ⟨⟩
      exact hins rfl
  -- where nothing changes for the run's first block, the call must not return `Ok`
  have hlost : d'.lookupExtent fs' c.logical = none → (Inserts s c ↔ r ≠ .ok ()) := by
    intro hnone
    rw [hlaw]
    constructor
    · intro hins hr
      have hat := hins hr c.logical
      have hfirst := (h.fits c (List.mem_cons_self ..)).first_lt
      rw [if_pos ⟨le_rfl, hfirst⟩, physicalAt_eq_none.mpr hnone] at hat
      cases hat
    · exact fun hne hr => absurd hr hne
  unfold Insertable
  cases insertExtent_insertedBy h.fits_root hres with
  | below hdepth hbelow =>
    rw [if_neg hdepth, hlost h.lookup_logical]
    exact insertBelow_ok_iff hbelow
  | merged hdepth hfind hget hm hheader hextents =>
    rw [if_pos hdepth, hfind, hlaw]
    have hiff := h.inserts_merged_iff hdepth hget hm hheader hextents
    exact ⟨fun hins => hiff.mp (hins rfl), fun hc _ => hiff.mpr hc⟩
  | split hdepth hfind hfull hsplit hbelow =>
    rw [if_pos hdepth, hfind, hlost (h.split_lookup hdepth hsplit h.lookup_logical)]
    dsimp only
    rw [if_pos hfull, ← h.split_idxs hdepth hsplit]
    exact insertBelow_ok_iff hbelow
  | added hdepth hfind hroom hdepth' hmax hentries hperm hsorted =>
    rw [if_pos hdepth, hfind, hlaw]
    dsimp only
    rw [if_neg hroom]
    have hiff := h.inserts_added_iff hdepth hdepth' hperm hsorted
    exact ⟨fun hins => hiff.mp (hins rfl), fun hc _ => hiff.mpr hc⟩

/-- An insertion that the tree can take leaves a tree that is ready for the next one. -/
theorem Built.step (h : Built s (c :: cs)) (hc : Insertable s c)
    {s' : Ext4InodeDisk × Ext4FileSystem} (hs' : insertStep s c = some s') : Built s' cs := by
  have hlaw := (h.inserts_iff hs').mpr hc
  obtain ⟨⟨r, d', fs'⟩, hres, rfl⟩ := Option.map_eq_some_iff.mp hs'
  have hfits : ∀ c' ∈ cs, c'.Fits := fun c' hc' => h.fits c' (List.mem_cons_of_mem _ hc')
  obtain ⟨hapart, happarts⟩ := List.pairwise_cons.mp h.apart
  have hfree : ∀ c' ∈ cs, ∀ l : UInt32, c'.first ≤ l.toNat → l.toNat < c'.stop →
      s.1.lookupExtent s.2 l = none := fun c' hc' => h.unmapped c' (List.mem_cons_of_mem _ hc')
  -- after `Ok` the runs to come are as little mapped as before
  have hfree' : r = .ok () → ∀ c' ∈ cs, ∀ l : UInt32, c'.first ≤ l.toNat → l.toNat < c'.stop →
      d'.lookupExtent fs' l = none := by
    rintro rfl c' hc' l hl hl'
    have hmeet := hapart c' hc'
    unfold Apart at hmeet
    have hat := hlaw d' fs' hres l
    rw [if_neg (by omega), physicalAt_eq_none.mpr (hfree c' hc' l hl hl')] at hat
    exact physicalAt_eq_none.mp hat
  unfold Insertable at hc
  cases insertExtent_insertedBy h.fits_root hres with
  | below hdepth _ => exact ⟨h.sound, h.leaf, hfits, happarts, hfree⟩
  | @merged i e root hdepth hfind hget hm hheader hextents =>
    rw [if_pos hdepth, hfind] at hc
    refine ⟨h.sound, fun _ => ⟨h.merged_ordered hdepth hget hm hextents hc.2, ?_⟩, hfits, happarts,
      hfree' rfl⟩
    rw [hheader]
    exact (h.leaf hdepth).2
  | split hdepth hfind hfull hsplit _ =>
    obtain ⟨leftBlock, rightBlock, left, right, first, second, hs⟩ :=
      splitLeafBlock_eq_some h.sound hdepth hsplit
    have hlen : (extents s.1.block).length ≤ 340 := by
      rw [length_extents]
      exact (UInt16.le_iff_toNat_le.mp (h.leaf hdepth).2.2).trans (by decide)
    refine ⟨(hs.spec h.sound hlen).1, fun h0 => absurd h0 hs.depth, hfits, happarts, ?_⟩
    exact fun c' hc' l hl hl' => h.split_lookup hdepth hsplit (hfree c' hc' l hl hl')
  | added hdepth hfind hroom hdepth' hmax hentries hperm hsorted =>
    rw [if_pos hdepth, hfind] at hc
    dsimp only at hc
    rw [if_neg hroom] at hc
    refine ⟨h.sound, fun _ => ⟨h.added_ordered hdepth hperm hsorted hc, ?_, ?_⟩, hfits, happarts,
      hfree' rfl⟩
    · rw [hmax]
      exact (h.leaf hdepth).2.1
    · obtain ⟨-, hmax4, hfew⟩ := h.leaf hdepth
      rw [hmax4, ← UInt16.toNat_inj.ne] at hroom
      rw [UInt16.le_iff_toNat_le] at hfew ⊢
      dsimp only
      rw [hentries]
      simp only [UInt16.reduceToNat] at hroom hfew ⊢
      omega

end Step

/-- **Insertion into a new tree.**  In a run of insertions of disjoint runs of blocks, every one
that returns `Ok` adds its run to the map and changes nothing else, exactly when each of them is
one that the tree can take. -/
theorem insertions_iff {fs : Ext4FileSystem} (hs : fs.Sound) {d : Ext4InodeDisk}
    (hroot : extentHeader d.block = Ext4ExtentHeader.newRoot) {cs : List Insertion}
    (hfits : ∀ c ∈ cs, c.Fits) (hapart : cs.Pairwise (Apart Insertion.first Insertion.stop))
    {s' : Ext4InodeDisk × Ext4FileSystem} (hrun : cs.foldlM insertStep (d, fs) = some s') :
    Run.AlongSome insertStep Inserts (d, fs) cs ↔ Run.AlongSome insertStep Insertable (d, fs) cs := by
  have hempty : extents d.block = [] := by
    rw [← List.length_eq_zero_iff, length_extents, hroot]
    rfl
  refine Run.alongSome_iff (I := Built) (fun s c cs s' h hstep => h.inserts_iff hstep)
    (fun s c cs s' h hc hstep => h.step hc hstep) ⟨hs, fun _ => ?_, hfits, hapart, ?_⟩ hrun
  · rw [hempty, hroot]
    exact ⟨⟨List.Pairwise.nil, by simp, by simp⟩, rfl, by decide⟩
  · intro c _ l _ _
    refine lookupExtent_eq_none_of_covers fun e he => ?_
    rw [Ext4InodeDisk.iterAllExtents, maxDepth_eq, iterAllExtents_leaf (by rw [hroot]; rfl),
      hempty] at he
    cases he

/-- The root of a new file. -/
def emptyRoot : Ext4InodeDisk := ⟨0, 1, true, false, Ext4ExtentHeader.newRoot.write fun _ => 0⟩

theorem emptyRoot_header : extentHeader emptyRoot.block = Ext4ExtentHeader.newRoot :=
  extentHeader_write ..

/-- Two runs, the second right behind the first. -/
theorem insertions_iff_twoRuns : ∃ s', [⟨0, 100, 1⟩, ⟨1, 101, 2⟩].foldlM insertStep
      (emptyRoot, oneGroup) = some s' ∧
    (Run.AlongSome insertStep Inserts (emptyRoot, oneGroup) [⟨0, 100, 1⟩, ⟨1, 101, 2⟩] ↔
      Run.AlongSome insertStep Insertable (emptyRoot, oneGroup) [⟨0, 100, 1⟩, ⟨1, 101, 2⟩]) := by
  have hsome : ([⟨0, 100, 1⟩, ⟨1, 101, 2⟩].foldlM insertStep
      (emptyRoot, oneGroup)).isSome = true := by decide +kernel
  obtain ⟨s', hs'⟩ := Option.isSome_iff_exists.mp hsome
  refine ⟨s', hs', insertions_iff oneGroup_sound emptyRoot_header ?_ ?_ hs'⟩
  · simp only [List.mem_cons, List.not_mem_nil, or_false, forall_eq_or_imp, forall_eq]
    exact ⟨⟨by decide, by decide, by decide, by decide⟩, by decide, by decide, by decide, by decide⟩
  · rw [List.pairwise_cons]
    refine ⟨fun c hc => ?_, List.pairwise_singleton _ _⟩
    rw [List.mem_singleton.mp hc]
    exact Or.inl (by decide)

/-- Five single blocks, none next to another. -/
def fiveRuns : List Insertion :=
  [⟨0, 100, 1⟩, ⟨2, 102, 1⟩, ⟨4, 104, 1⟩, ⟨6, 106, 1⟩] ++ [⟨8, 108, 1⟩]

/-- What becomes of the fifth: the call returns `Ok` and the block is not mapped. -/
def fifthIsLost : Bool :=
  match (fiveRuns.take 4).foldlM insertStep (emptyRoot, oneGroup) with
  | none => false
  | some s =>
    match s.1.insertExtent 8 108 1 s.2 with
    | some (.ok _, d', fs') => (d'.lookupExtent fs' 8).isNone
    | _ => false

/-- The fifth extent of a file is lost: the root is split, and the run goes into a copy of a
leaf that is not written back. -/
theorem fiveRuns_not_inserted : (∀ c ∈ fiveRuns, c.Fits) ∧
    fiveRuns.Pairwise (Apart Insertion.first Insertion.stop) ∧
    ¬ Run.AlongSome insertStep Inserts (emptyRoot, oneGroup) fiveRuns := by
  refine ⟨?_, ?_, fun h => ?_⟩
  · intro c hc
    simp only [fiveRuns, List.cons_append, List.nil_append, List.mem_cons, List.not_mem_nil,
      or_false] at hc
    rcases hc with rfl | rfl | rfl | rfl | rfl <;>
      exact ⟨by decide, by decide, by decide, by decide⟩
  · unfold Apart
    decide
  · have hlost : fifthIsLost = true := by decide +kernel
    unfold fifthIsLost at hlost
    split at hlost
    · cases hlost
    · rename_i s hs
      have hins := h.mid hs
      split at hlost
      · rename_i d' fs' hres
        have hat := hins d' fs' hres 8
        rw [if_pos (by decide), physicalAt_eq_none.mpr (Option.isNone_iff_eq_none.mp hlost)] at hat
        cases hat
      · cases hlost

end Ext4InodeDisk

end QuackOS.Ext4
