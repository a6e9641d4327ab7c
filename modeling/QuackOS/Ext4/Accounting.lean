import Mathlib.Algebra.Order.BigOperators.Group.List
import QuackOS.Lib.Run
import QuackOS.Ext4.Volume

/-!
# Free-space accounting

The counts of free blocks and inodes, in the groups and in the superblock, against the bitmaps.
`Counted` is the part about blocks; the bits of a group are those of `used`, so that a call is
known by what it does to `used` and to the counts.

`dealloc_contiguous` clears nothing when its guard fails, while the counts grow all the same, and
`dealloc_inode` leaves the superblock's count as it is: `VolumeCall.Keeps` is the condition that
neither happens.
-/

namespace QuackOS.Ext4

open Buffer Ext4ExtentBlock

/-- A sum over a list when one entry is replaced. -/
theorem sum_map_set {α : Type*} (f : α → ℕ) {l : List α} {i : ℕ} {a b : α} (h : l[i]? = some a) :
    ((l.set i b).map f).sum + f a = (l.map f).sum + f b := by
  induction l generalizing i with
  | nil => cases h
  | cons x l ih =>
    cases i with
    | zero =>
      cases h
      simp only [List.set_cons_zero, List.map_cons, List.sum_cons]
      omega
    | succ i =>
      have := ih (by simpa using h)
      simp only [List.set_cons_succ, List.map_cons, List.sum_cons]
      omega

/-- An entry is at most the sum. -/
theorem le_sum_map {α : Type*} (f : α → ℕ) {l : List α} {a : α} (h : a ∈ l) :
    f a ≤ (l.map f).sum :=
  List.le_sum_of_mem (List.mem_map_of_mem h)

namespace Ext4FileSystem

variable {fs fs' fs₁ : Ext4FileSystem} {g g' : GroupDesc} {i : ℕ} {data : Buffer}

/-- The counts of free blocks are right, except that the superblock's is `debt` too high. -/
structure CountedUpTo (fs : Ext4FileSystem) (debt : ℕ) : Prop where
  groups : ∀ (i : ℕ) (g : GroupDesc), fs.blockGroups[i]? = some g → g.freeBlocksCount.toNat =
    clearCount (fs.block g.blockBitmap) fs.blocksPerGroup
  total : fs.freeBlocksCount.toNat =
    (fs.blockGroups.map fun g => g.freeBlocksCount.toNat).sum + debt

/-- The bits of a group, as blocks of the file system. -/
theorem testBit_block (hg : fs.blockGroups[i]? = some g) {m : ℕ} (hm : m < fs.blocksPerGroup) :
    testBit (fs.block g.blockBitmap) m = fs.used (fs.blocksPerGroup * i + m) := by
  have hdiv : (fs.blocksPerGroup * i + m) / fs.blocksPerGroup = i := by
    rw [Nat.mul_add_div (by omega), Nat.div_eq_of_lt hm, Nat.add_zero]
  rw [used_eq_testBit hg hdiv, Nat.mul_add_mod, Nat.mod_eq_of_lt hm]

/-- The counts see the bitmaps through `used` only. -/
theorem CountedUpTo.congr {debt debt' : ℕ} (h : fs.CountedUpTo debt)
    (hgroups : fs'.blockGroups = fs.blockGroups) (hper : fs'.blocksPerGroup = fs.blocksPerGroup)
    (hused : ∀ x, fs'.used x = fs.used x)
    (htotal : fs'.freeBlocksCount.toNat + debt = fs.freeBlocksCount.toNat + debt') :
    fs'.CountedUpTo debt' := by
  refine ⟨fun i g hg => ?_, ?_⟩
  · have hg' : fs.blockGroups[i]? = some g := hgroups ▸ hg
    rw [h.groups i g hg', hper]
    refine clearCount_congr fun m hm => ?_
    rw [testBit_block hg' hm, testBit_block hg (hper ▸ hm), hused, hper]
  · have := h.total
    rw [hgroups]
    omega

/-- One group's bitmap and count change. -/
theorem CountedUpTo.remap {debt debt' : ℕ} (h : fs.CountedUpTo debt)
    (hremap : Remapped fs fs' i data) (hg : fs.blockGroups[i]? = some g)
    (hgroups : fs'.blockGroups = fs.blockGroups.set i g')
    (hcount : g'.freeBlocksCount.toNat = clearCount data fs.blocksPerGroup)
    (htotal : fs'.freeBlocksCount.toNat + g.freeBlocksCount.toNat + debt =
      fs.freeBlocksCount.toNat + g'.freeBlocksCount.toNat + debt') :
    fs'.CountedUpTo debt' := by
  obtain ⟨hi, -⟩ := List.getElem?_eq_some_iff.mp hg
  refine ⟨fun j g₁ hg₁ => ?_, ?_⟩
  · have hbits : ∀ m < fs.blocksPerGroup, testBit (fs'.block g₁.blockBitmap) m =
        if j = i then testBit data m else fs.used (fs.blocksPerGroup * j + m) := by
      intro m hm
      have hdiv : (fs.blocksPerGroup * j + m) / fs.blocksPerGroup = j := by
        rw [Nat.mul_add_div (by omega), Nat.div_eq_of_lt hm, Nat.add_zero]
      rw [testBit_block hg₁ (hremap.blocksPerGroup ▸ hm), hremap.blocksPerGroup, hremap.used, hdiv,
        Nat.mul_add_mod, Nat.mod_eq_of_lt hm]
    rw [hremap.blocksPerGroup]
    rw [hgroups] at hg₁
    by_cases hji : j = i
    · subst hji
      rw [List.getElem?_set_self hi] at hg₁
      cases hg₁
      rw [hcount]
      refine clearCount_congr fun m hm => ?_
      rw [hbits m hm, if_pos rfl]
    · rw [List.getElem?_set_ne fun hij => hji hij.symm] at hg₁
      rw [h.groups j g₁ hg₁]
      refine clearCount_congr fun m hm => ?_
      rw [hbits m hm, if_neg hji, testBit_block hg₁ hm]
  · have hsum := sum_map_set (fun g => g.freeBlocksCount.toNat) (b := g') hg
    have := h.total
    rw [hgroups]
    omega

theorem CountedUpTo.le_total {debt : ℕ} (h : fs.CountedUpTo debt)
    (hg : fs.blockGroups[i]? = some g) :
    g.freeBlocksCount.toNat ≤ fs.freeBlocksCount.toNat := by
  have := le_sum_map (fun g : GroupDesc => g.freeBlocksCount.toNat) (List.mem_of_getElem? hg)
  have := h.total
  omega

end Ext4FileSystem

/-! ## Taking blocks -/

section Words

theorem toNat_sub_ofNat32 {x : UInt32} {n : ℕ} (h : n ≤ x.toNat) :
    (x - UInt32.ofNat n).toNat = x.toNat - n := by
  have hx := x.toNat_lt
  have hn : (UInt32.ofNat n).toNat = n := UInt32.toNat_ofNat_of_lt' (by simp only [UInt32.size]; omega)
  rw [UInt32.toNat_sub_of_le _ _ (by rw [UInt32.le_iff_toNat_le, hn]; exact h), hn]

theorem toNat_sub_ofNat64 {x : UInt64} {n : ℕ} (h : n ≤ x.toNat) :
    (x - UInt64.ofNat n).toNat = x.toNat - n := by
  have hx := x.toNat_lt
  have hn : (UInt64.ofNat n).toNat = n := UInt64.toNat_ofNat_of_lt' (by simp only [UInt64.size]; omega)
  rw [UInt64.toNat_sub_of_le _ _ (by rw [UInt64.le_iff_toNat_le, hn]; exact h), hn]

end Words

namespace GroupDesc

/-- The count of a group goes down by one with every block. -/
theorem allocOneBlock_count {g g' : GroupDesc} {dev dev' : Buffer} {bs size n : ℕ}
    (h : g.allocOneBlock dev bs size = some (n, g', dev')) :
    g'.freeBlocksCount = g.freeBlocksCount - 1 := by
  unfold allocOneBlock at h
  split at h
  · cases h
  · obtain ⟨i, -, hround⟩ := List.exists_of_findSome?_eq_some h
    split at hround
    · cases hround
      rfl
    · cases hround

theorem runTotal_cons (start n : ℕ) (runs : List (ℕ × ℕ)) :
    runTotal ((start, n) :: runs) = n + runTotal runs := rfl

/-- The runs are no longer than asked for, and the bitmap loses as many clear bits. -/
theorem takeRuns_count {bits size fuel count : ℕ} (hbits : ext4BlockSize * 8 ≤ bits)
    {bitmap : Buffer} :
    runTotal (takeRuns size fuel count bitmap).1 ≤ count ∧
      clearCount (takeRuns size fuel count bitmap).2 bits +
        runTotal (takeRuns size fuel count bitmap).1 = clearCount bitmap bits := by
  induction fuel generalizing count bitmap with
  | zero => exact ⟨Nat.zero_le _, rfl⟩
  | succ fuel ih =>
    unfold takeRuns
    split
    · exact ⟨Nat.zero_le _, rfl⟩
    · rename_i hcount
      split
      · exact ⟨Nat.zero_le _, rfl⟩
      · rename_i start n bitmap' halloc
        obtain ⟨hclear, -, hmax, hend, rfl⟩ :=
          Ext4Bitmap.allocContiguous_eq_some (Nat.pos_of_ne_zero hcount) halloc
        obtain ⟨hle, htotal⟩ := @ih (count - n) (setRange bitmap start n)
        have hset := @clearCount_setRange bitmap bits start n (by omega) hclear
        simp only [runTotal_cons]
        omega

open Ext4FileSystem (runBlocks) in
/-- What a group hands out is taken off its bitmap and off its count. -/
theorem allocBlock_count {g g' : GroupDesc} {dev dev' : Buffer} {bits size count : ℕ}
    {runs : List (ℕ × ℕ)} (hbits : ext4BlockSize * 8 ≤ bits) (hsize : size ≤ 4096)
    (h : g.allocBlock dev 4096 size count = (runs, g', dev')) :
    runTotal runs ≤ count ∧
      g'.freeBlocksCount = g.freeBlocksCount - UInt32.ofNat (runTotal runs) ∧
      (runs = [] → dev' = dev) ∧
      (runs ≠ [] → size = 4096 ∧ ∃ data, dev' = writeExt4Block dev g.blockBitmap data 4096 ∧
        Ext4Bitmap.Taken (readExt4Block dev g.blockBitmap 4096) data (runBlocks runs) ∧
        clearCount data bits + runTotal runs =
          clearCount (readExt4Block dev g.blockBitmap 4096) bits) := by
  have hzero : g.freeBlocksCount = g.freeBlocksCount - UInt32.ofNat (runTotal []) := by
    simp [runTotal]
  unfold GroupDesc.allocBlock at h
  rcases Nat.lt_or_ge size 4096 with hlt | hge
  · rw [Nat.div_eq_of_lt hlt] at h
    cases h
    exact ⟨Nat.zero_le _, hzero, fun _ => rfl, fun hne => absurd rfl hne⟩
  · have hfull : size = 4096 := by omega
    subst hfull
    simp only [Nat.div_self (show 0 < 4096 by omega), List.range_one, List.foldl_cons,
      List.foldl_nil, allocBlockRound] at h
    split at h
    · cases h
      exact ⟨Nat.zero_le _, hzero, fun _ => rfl, fun hne => absurd rfl hne⟩
    · simp only [Nat.add_zero, Nat.zero_mul, List.nil_append, Prod.mk.eta, List.map_id'] at h
      obtain ⟨hle, htotal⟩ :=
        @takeRuns_count bits 4096 count count hbits (readExt4Block dev g.blockBitmap 4096)
      have htaken := @takeRuns_taken 4096 count count (readExt4Block dev g.blockBitmap 4096)
      cases h
      refine ⟨hle, rfl, fun hnil => if_pos hnil, fun hne => ⟨rfl, _, ?_, htaken, htotal⟩⟩
      rw [if_neg hne]

end GroupDesc

namespace Ext4FileSystem

variable {fs fs' : Ext4FileSystem}

/-- **`alloc_one_block`** keeps the counts. -/
theorem CountedUpTo.allocOneBlock (h : fs.CountedUpTo 0) (hs : fs.Sound) {x : ℕ}
    (ha : fs.allocOneBlock = some (x, fs')) : fs'.CountedUpTo 0 := by
  obtain ⟨i, -, hround⟩ := List.exists_of_findSome?_eq_some ha
  split at hround
  · cases hround
  · rename_i g hg
    split at hround
    · cases hround
    · rename_i n g' dev' hgroup
      have hfree := GroupDesc.allocOneBlock_count hgroup
      rw [hs.blockSize] at hgroup
      obtain ⟨hsize, hbitmap, hn, hclear, hdev⟩ :=
        GroupDesc.allocOneBlock_eq_some hs.bitmapSize_le hgroup
      have hper : fs.blocksPerGroup = 32768 := by
        have := hs.blocksPerGroup_le
        unfold blockBitmapSize at hsize
        omega
      rw [← hs.blockSize] at hdev hclear
      set fs₁ : Ext4FileSystem := { fs with
        blockGroups := fs.blockGroups.set i g'
        freeBlocksCount := fs.freeBlocksCount - 1
        device := dev' }
      have hremap := hs.remapped fs₁ hg hbitmap rfl rfl rfl hdev
      have hcount := h.groups i g hg
      have hset := @clearCount_setBit (fs.block g.blockBitmap) fs.blocksPerGroup n (by omega) hclear
      have hle := h.le_total hg
      have hg' : g'.freeBlocksCount.toNat = g.freeBlocksCount.toNat - 1 := by
        rw [hfree]
        exact @toNat_sub_ofNat32 _ 1 (by omega)
      have htotal : fs₁.freeBlocksCount.toNat = fs.freeBlocksCount.toNat - 1 :=
        @toNat_sub_ofNat64 _ 1 (by omega)
      have h₁ : fs₁.CountedUpTo 0 := by
        refine h.remap hremap hg rfl ?_ (by omega)
        have hdata : clearCount (setBit (fs.block g.blockBitmap) n) fs.blocksPerGroup =
            g.freeBlocksCount.toNat - 1 := by omega
        rw [hg', ← hdata]
        rfl
      have hfresh := hs.allocOneBlock ha
      cases hround
      refine h₁.congr rfl rfl (fun y => ?_) rfl
      refine @used_writeBytes fs₁ hs.blockSize _ ?_ _ _ (Nat.le_of_eq hs.blockSize) y
      rw [hremap.bitmaps]
      exact hfresh.not_bitmap hs (List.mem_singleton_self _)

/-- The loop over the runs takes each of them off the superblock's count. -/
theorem takeAllocated_counts {i : ℕ} {runs result : List (ℕ × ℕ)} {remaining : ℕ}
    (hpos : ∀ run ∈ runs, 0 < run.2) (hle : GroupDesc.runTotal runs ≤ remaining)
    (hfree : GroupDesc.runTotal runs ≤ fs.freeBlocksCount.toNat) :
    (takeAllocated i runs result remaining fs).2.2.blockGroups = fs.blockGroups ∧
      (takeAllocated i runs result remaining fs).2.2.blocksPerGroup = fs.blocksPerGroup ∧
      (takeAllocated i runs result remaining fs).2.2.freeBlocksCount.toNat +
        GroupDesc.runTotal runs = fs.freeBlocksCount.toNat := by
  induction runs generalizing fs result remaining with
  | nil => exact ⟨rfl, rfl, rfl⟩
  | cons run runs ih =>
    obtain ⟨start, n⟩ := run
    have hn := hpos (start, n) (List.mem_cons_self ..)
    have hpos' : ∀ run ∈ runs, 0 < run.2 := fun run hr => hpos run (List.mem_cons_of_mem _ hr)
    rw [GroupDesc.runTotal_cons] at hle hfree ⊢
    have hzero : ∀ fs : Ext4FileSystem, ∀ start count,
        (fs.zeroBlocks start count).blockGroups = fs.blockGroups ∧
        (fs.zeroBlocks start count).blocksPerGroup = fs.blocksPerGroup ∧
        (fs.zeroBlocks start count).freeBlocksCount = fs.freeBlocksCount := by
      intro fs start count
      unfold zeroBlocks
      induction List.range' start count generalizing fs with
      | nil => exact ⟨rfl, rfl, rfl⟩
      | cons x xs ih => exact ih _
    unfold takeAllocated
    dsimp only
    obtain ⟨h1, h2, h3⟩ := hzero { fs with
      freeBlocksCount := fs.freeBlocksCount - UInt64.ofNat n } (start + fs.blocksPerGroup * i) n
    have h4 : (fs.freeBlocksCount - UInt64.ofNat n).toNat = fs.freeBlocksCount.toNat - n :=
      toNat_sub_ofNat64 (by omega)
    by_cases hlast : remaining - n = 0
    · -- the runs are no longer than what is left, so this was the last one
      have hnil : runs = [] := by
        cases runs with
        | nil => rfl
        | cons run runs =>
          have := hpos' run (List.mem_cons_self ..)
          rw [GroupDesc.runTotal_cons] at hle
          simp only at hn
          omega
      subst hnil
      rw [if_pos hlast]
      refine ⟨h1, h2, ?_⟩
      rw [h3, h4]
      simp only [GroupDesc.runTotal, List.map_nil, List.sum_nil] at hfree ⊢
      omega
    · rw [if_neg hlast]
      obtain ⟨r1, r2, r3⟩ := @ih (zeroBlocks { fs with
        freeBlocksCount := fs.freeBlocksCount - UInt64.ofNat n } (start + fs.blocksPerGroup * i) n)
        (result ++ [(start + fs.blocksPerGroup * i, n)]) (remaining - n) hpos' (by omega)
        (by rw [h3, h4]; omega)
      refine ⟨r1.trans h1, r2.trans h2, ?_⟩
      rw [h3, h4] at r3
      omega

/-- One round of `alloc_block` keeps the counts. -/
theorem CountedUpTo.allocBlockRound (h : fs.CountedUpTo 0) (hs : fs.Sound)
    (result : List (ℕ × ℕ)) (remaining i : ℕ) :
    (allocBlockRound (result, remaining, fs) i).2.2.CountedUpTo 0 := by
  unfold Ext4FileSystem.allocBlockRound
  dsimp only
  split
  · exact h
  · split
    · exact h
    · rename_i g hg
      rcases hgroup : g.allocBlock fs.device fs.blockSize fs.blockBitmapSize remaining with
        ⟨runs, g', dev'⟩
      dsimp only
      rw [hs.blockSize] at hgroup
      have hcount := h.groups i g hg
      have hle := h.le_total hg
      obtain ⟨hbitmap, hfits, -⟩ := GroupDesc.allocBlock_taken hs.bitmapSize_le hgroup
      by_cases hnil : runs = []
      · obtain ⟨-, hfree, hdev, -⟩ :=
          GroupDesc.allocBlock_count (Nat.le_refl _) hs.bitmapSize_le hgroup
        have hg' : g' = g := by
          cases g
          cases g'
          simp only [hnil] at hbitmap hfree
          rw [hbitmap, hfree]
          simp [GroupDesc.runTotal]
        have hset : fs.blockGroups.set i g = fs.blockGroups := by
          obtain ⟨hi, rfl⟩ := List.getElem?_eq_some_iff.mp hg
          exact List.set_getElem_self hi
        rw [if_pos hnil, hg', hdev hnil, hset]
        exact h
      · have hper : ext4BlockSize * 8 ≤ fs.blocksPerGroup := by
          obtain ⟨-, -, -, hsome⟩ :=
            GroupDesc.allocBlock_count (Nat.le_refl _) hs.bitmapSize_le hgroup
          have hsize := (hsome hnil).1
          unfold blockBitmapSize at hsize
          simp only [ext4BlockSize]
          omega
        obtain ⟨hremaining, hfree, -, hsome⟩ :=
          GroupDesc.allocBlock_count hper hs.bitmapSize_le hgroup
        obtain ⟨hsize, data, hdev, htaken, hclear⟩ := hsome hnil
        rw [← hs.blockSize] at hdev htaken hclear
        rw [if_neg hnil]
        set fs₁ : Ext4FileSystem :=
          { fs with blockGroups := fs.blockGroups.set i g', device := dev' }
        have hruns := hs.runsTaken fs₁ hg hbitmap hsize rfl rfl rfl hdev htaken
        have hclear' : clearCount data fs.blocksPerGroup + GroupDesc.runTotal runs =
            clearCount (fs.block g.blockBitmap) fs.blocksPerGroup := hclear
        have hg' : g'.freeBlocksCount.toNat =
            g.freeBlocksCount.toNat - GroupDesc.runTotal runs := by
          rw [hfree]
          exact toNat_sub_ofNat32 (by omega)
        have hfree₁ : fs₁.freeBlocksCount = fs.freeBlocksCount := rfl
        have h₁ : fs₁.CountedUpTo (GroupDesc.runTotal runs) :=
          h.remap hruns.remapped hg rfl (by omega) (by rw [hfree₁]; omega)
        obtain ⟨-, -, -, -, -, hused, -, -⟩ :=
          takeAllocated_spec hruns.sound i runs result remaining hruns.notBitmap
        obtain ⟨hgroups, hbpg, htotal⟩ := @takeAllocated_counts fs₁ i runs result remaining
          (fun run hrun => (hfits run hrun).1) hremaining (by rw [hfree₁]; omega)
        exact h₁.congr hgroups hbpg hused (by omega)

/-- **`alloc_block`** keeps the counts. -/
theorem CountedUpTo.allocBlock (h : fs.CountedUpTo 0) (hs : fs.Sound) (count : ℕ) :
    (fs.allocBlock count).2.CountedUpTo 0 := by
  have hfold : ∀ (is : List ℕ) (st : List (ℕ × ℕ) × ℕ × Ext4FileSystem),
      st.2.2.Sound ∧ st.2.2.CountedUpTo 0 →
      (is.foldl Ext4FileSystem.allocBlockRound st).2.2.CountedUpTo 0 := by
    intro is
    induction is with
    | nil => exact fun _ hst => hst.2
    | cons i is ih =>
      rintro ⟨result, remaining, fs₁⟩ ⟨hs₁, h₁⟩
      obtain ⟨taken, -, -, hfresh⟩ := allocBlockRound_fresh hs₁ result remaining i
      exact ih _ ⟨hfresh.sound, h₁.allocBlockRound hs₁ result remaining i⟩
  exact hfold (List.range fs.blockGroups.length) ([], count, fs) ⟨hs, h⟩

/-! ## Giving blocks back -/

/-- Clearing a run of set bits adds its length to the count. -/
theorem clearCount_clearLoop {bitmap : Buffer} {n start count : ℕ} (hn : start + count ≤ n)
    (hset : ∀ m, start ≤ m → m < start + count → testBit bitmap m = true) :
    clearCount (Ext4Bitmap.clearLoop bitmap count (start / 8) (start % 8)) n =
      clearCount bitmap n + count := by
  induction count generalizing bitmap start with
  | zero => rfl
  | succ count ih =>
    have hfirst := @clearCount_clearBit bitmap n start (by omega) (hset start (by omega) (by omega))
    have hrest := @ih (clearBit bitmap start) (start + 1) (by omega) fun m h1 h2 => by
      have hne : m ≠ start := by omega
      simp [hne, hset m (by omega) (by omega)]
    rw [Ext4Bitmap.clearLoop_succ, hrest]
    omega

/-- The blocks given back are all used, and the guard of `dealloc_contiguous` lets them pass. -/
def FreesUsed (fs : Ext4FileSystem) (blockNum blockCount : ℕ) : Prop :=
  blockCount = 0 ∨ (blockNum % fs.blocksPerGroup / 8 + blockCount < fs.blockBitmapSize ∧
    ∀ x ∈ List.range' blockNum blockCount, fs.used x = true)

theorem CountedUpTo.total_le (h : fs.CountedUpTo 0) (hs : fs.Sound) :
    fs.freeBlocksCount.toNat ≤ 64 * 32768 := by
  have hsum : (fs.blockGroups.map fun g => g.freeBlocksCount.toNat).sum ≤
      fs.blockGroups.length * 32768 := by
    have hle : ∀ n ∈ fs.blockGroups.map (fun g => g.freeBlocksCount.toNat), n ≤ 32768 := by
      intro n hn
      obtain ⟨g, hg, rfl⟩ := List.mem_map.mp hn
      obtain ⟨i, hi⟩ := List.mem_iff_getElem?.mp hg
      have h1 := clearCount_le (fs.block g.blockBitmap) fs.blocksPerGroup
      have h2 := hs.blocksPerGroup_le
      rw [h.groups i g hi]
      omega
    have := List.sum_le_card_nsmul _ _ hle
    rw [List.length_map] at this
    exact this
  have := h.total
  have := hs.groups_le
  omega

theorem clearCount_deallocContiguous {bitmap : Buffer} {n start count size : ℕ}
    (hstart : start / 8 < ext4BlockSize) (hn : start + count ≤ n)
    (hguard : count = 0 ∨ start / 8 + count < size)
    (hset : ∀ m, start ≤ m → m < start + count → testBit bitmap m = true) :
    clearCount (Ext4Bitmap.deallocContiguous bitmap start count size) n =
      clearCount bitmap n + count := by
  unfold Ext4Bitmap.deallocContiguous
  dsimp only
  by_cases hg : start / 8 < ext4BlockSize ∧ start / 8 + count < size
  · rw [if_pos hg]
    exact clearCount_clearLoop hn hset
  · rw [if_neg hg]
    obtain rfl : count = 0 := by
      rcases hguard with hguard | hguard
      · exact hguard
      · exact absurd ⟨hstart, hguard⟩ hg
    rfl

/-- **`dealloc_block`** keeps the counts when all blocks given back are used. -/
theorem CountedUpTo.deallocBlock (h : fs.CountedUpTo 0) (hs : fs.Sound) {start count : ℕ}
    (hfrees : fs.FreesUsed start count) (hd : fs.deallocBlock start count = some fs') :
    fs'.CountedUpTo 0 := by
  have hpos := hs.blocksPerGroup_pos
  have hper := hs.blocksPerGroup_le
  have hmod := Nat.mod_lt start hpos
  have htotal := h.total_le hs
  unfold Ext4FileSystem.deallocBlock at hd
  dsimp only at hd
  split at hd
  · cases hd
  · rename_i g hg
    rcases hgroup : g.deallocBlock fs.device (start % fs.blocksPerGroup) count fs.blockSize
      fs.blockBitmapSize with ⟨g', dev'⟩
    have hfree : g'.freeBlocksCount = g.freeBlocksCount + UInt32.ofNat count := by
      unfold GroupDesc.deallocBlock at hgroup
      cases hgroup
      rfl
    have hlt : start % fs.blocksPerGroup < fs.blockSize * 8 := by
      rw [hs.blockSize]
      omega
    rw [hgroup] at hd
    obtain ⟨hbitmap, hdev⟩ := GroupDesc.deallocBlock_eq hlt hgroup
    cases hd
    have hin : start % fs.blocksPerGroup + count ≤ fs.blocksPerGroup := by
      rcases hfrees with rfl | ⟨hguard, -⟩
      · omega
      · unfold blockBitmapSize at hguard
        omega
    have hset : ∀ m, start % fs.blocksPerGroup ≤ m → m < start % fs.blocksPerGroup + count →
        testBit (fs.block g.blockBitmap) m = true := by
      intro m h1 h2
      rcases hfrees with rfl | ⟨-, hused⟩
      · omega
      · rw [testBit_block hg (by omega)]
        refine hused _ ?_
        have := Nat.div_add_mod start fs.blocksPerGroup
        rw [List.mem_range'_1]
        omega
    have hclear := @clearCount_deallocContiguous (fs.block g.blockBitmap) fs.blocksPerGroup
      (start % fs.blocksPerGroup) count fs.blockBitmapSize
      (by simp only [ext4BlockSize]; omega) hin (hfrees.imp_right And.left) hset
    have hle := clearCount_le (Ext4Bitmap.deallocContiguous (fs.block g.blockBitmap)
      (start % fs.blocksPerGroup) count fs.blockBitmapSize) fs.blocksPerGroup
    have hcount := h.groups _ g hg
    have hg' : g'.freeBlocksCount.toNat = g.freeBlocksCount.toNat + count := by
      rw [hfree, UInt32.toNat_add, UInt32.toNat_ofNat_of_lt' (by simp only [UInt32.size]; omega)]
      omega
    have hsuper : (fs.freeBlocksCount + UInt64.ofNat count).toNat =
        fs.freeBlocksCount.toNat + count := by
      rw [UInt64.toNat_add, UInt64.toNat_ofNat_of_lt' (by simp only [UInt64.size]; omega)]
      omega
    refine h.remap (hs.remapped _ hg hbitmap rfl rfl rfl hdev) hg rfl ?_ ?_
    · rw [hg', hcount, ← hclear]
      rfl
    · show (fs.freeBlocksCount + UInt64.ofNat count).toNat + g.freeBlocksCount.toNat + 0 =
        fs.freeBlocksCount.toNat + g'.freeBlocksCount.toNat + 0
      omega

end Ext4FileSystem

/-! ## Inodes -/

/-- What a group hands out is a clear bit of its inode bitmap, within the group. -/
theorem InodeGroup.allocInode_eq_some {g g' : InodeGroup} {dev dev' : Buffer} {per n : ℕ}
    {isDir : Bool} (hper : per ≤ 32768)
    (hcount : g.freeInodesCount.toNat = clearCount (readExt4Block dev g.inodeBitmap 4096) per)
    (h : g.allocInode dev 4096 (per / 8) isDir = some (n, g', dev')) :
    g'.inodeBitmap = g.inodeBitmap ∧ g'.freeInodesCount = g.freeInodesCount - 1 ∧ n < per ∧
      testBit (readExt4Block dev g.inodeBitmap 4096) n = false ∧
      dev' = writeExt4Block dev g.inodeBitmap
        (setBit (readExt4Block dev g.inodeBitmap 4096) n) 4096 := by
  unfold InodeGroup.allocInode at h
  split at h
  · rename_i hfree
    have hpos : 0 < clearCount (readExt4Block dev g.inodeBitmap 4096) per := by
      rw [← hcount]
      exact UInt32.lt_iff_toNat_lt.mp hfree
    obtain ⟨m, hm, hclear⟩ := exists_clear_of_clearCount hpos
    obtain ⟨i, hi, hround⟩ := List.exists_of_findSome?_eq_some h
    rw [List.mem_range] at hi
    obtain rfl : i = 0 := by omega
    split at hround
    · rename_i k data halloc
      rw [Nat.add_zero] at halloc
      have hle := Ext4Bitmap.alloc_le halloc (by simp only [ext4BlockSize]; omega) hclear
      obtain ⟨-, hk, hset⟩ := Ext4Bitmap.alloc_eq_some halloc
      cases hround
      refine ⟨rfl, rfl, by omega, ?_, ?_⟩
      · simpa using hk
      · simp [hset]
    · cases hround
  · cases h

namespace Volume

variable {v v' : Volume} {fs' : Ext4FileSystem}

theorem Accounted.counted (h : v.Accounted) : v.fs.CountedUpTo 0 :=
  ⟨fun _ g hg => h.groupBlocks g (List.mem_of_getElem? hg), h.blocks⟩

/-- A call on blocks that leaves the inode bitmaps alone. -/
theorem keeps_of_blocks (hf : v.Formatted) (h : v.Accounted) (hs : fs'.Sound)
    (hbitmaps : fs'.bitmaps = v.fs.bitmaps) (hused : ∀ b ∈ v.inodeBitmaps, fs'.used b = true)
    (hblock : ∀ b ∈ v.inodeBitmaps, fs'.block b = v.fs.block b) (hcounted : fs'.CountedUpTo 0) :
    Formatted { v with fs := fs' } ∧ Accounted { v with fs := fs' } := by
  refine ⟨⟨hs, hf.inodesPerGroup_le, hf.groups_le, hf.bitmaps_nodup, fun b hb => ?_, hused⟩,
    fun g hg => ?_, fun g hg => ?_, hcounted.total, h.inodes⟩
  · show b ∉ fs'.bitmaps
    rw [hbitmaps]
    exact hf.bitmaps_apart b hb
  · obtain ⟨i, hi⟩ := List.mem_iff_getElem?.mp hg
    exact hcounted.groups i g hi
  · show g.freeInodesCount.toNat = clearCount (fs'.block g.inodeBitmap) v.inodesPerGroup
    rw [hblock g.inodeBitmap (List.mem_map_of_mem hg)]
    exact h.groupInodes g hg

/-- Blocks that were free before are taken. -/
theorem keeps_of_fresh {xs : List ℕ} (hf : v.Formatted) (h : v.Accounted)
    (hfresh : Ext4FileSystem.Fresh v.fs fs' xs) (hcounted : fs'.CountedUpTo 0) :
    Formatted { v with fs := fs' } ∧ Accounted { v with fs := fs' } := by
  refine keeps_of_blocks hf h hfresh.sound hfresh.bitmaps ?_ ?_ hcounted
  · exact fun b hb => hfresh.used_mono b (hf.bitmaps_used b hb)
  · intro b hb
    exact hfresh.block b (hf.bitmaps_apart b hb) (hfresh.not_mem_of_used (hf.bitmaps_used b hb))

section InodeBitmap

variable {g g' : InodeGroup} {i : ℕ}

/-- Replacing the counts of a group leaves the list of inode bitmaps alone. -/
theorem inodeBitmaps_set (hg : v.inodeGroups[i]? = some g) (hbitmap : g'.inodeBitmap = g.inodeBitmap) :
    (v.inodeGroups.set i g').map InodeGroup.inodeBitmap = v.inodeBitmaps := by
  obtain ⟨hi, hgi⟩ := List.getElem?_eq_some_iff.mp hg
  rw [List.map_set, hbitmap]
  refine List.ext_getElem (by simp [inodeBitmaps]) fun j h1 h2 => ?_
  rw [List.getElem_set]
  split
  · rename_i hij
    subst hij
    simp [inodeBitmaps, hgi]
  · simp [inodeBitmaps]

/-- Two groups have two inode bitmaps. -/
theorem Formatted.inodeBitmap_ne (hf : v.Formatted) {j : ℕ} {g₁ : InodeGroup}
    (hg : v.inodeGroups[i]? = some g) (hg₁ : v.inodeGroups[j]? = some g₁) (hji : j ≠ i) :
    g₁.inodeBitmap ≠ g.inodeBitmap := by
  intro heq
  have h1 : v.inodeBitmaps[j]? = some g.inodeBitmap := by simp [inodeBitmaps, hg₁, heq]
  have h2 : v.inodeBitmaps[i]? = some g.inodeBitmap := by simp [inodeBitmaps, hg]
  exact hji ((List.getElem?_inj (List.getElem?_eq_some_iff.mp h1).1 hf.bitmaps_nodup).mp
    (h1.trans h2.symm))

/-- The volume after an inode was taken: the bitmap of its group is written, and the counts are
one less. -/
def inodeTaken (v : Volume) (i : ℕ) (g g' : InodeGroup) (bitmap : Buffer) : Volume :=
  { v with
    fs := v.fs.writeBytes g.inodeBitmap bitmap v.fs.blockSize
    inodeGroups := v.inodeGroups.set i g'
    freeInodesCount := v.freeInodesCount - 1 }

variable {bitmap : Buffer}

theorem Formatted.inodeTaken (hf : v.Formatted) (hg : v.inodeGroups[i]? = some g)
    (hbitmap : g'.inodeBitmap = g.inodeBitmap) : (v.inodeTaken i g g' bitmap).Formatted := by
  have hs := hf.sound
  have hbs : v.fs.blockSize ≤ 4096 := Nat.le_of_eq hs.blockSize
  have hnot := hf.bitmaps_apart _ (List.mem_map_of_mem (List.mem_of_getElem? hg))
  have hnames := inodeBitmaps_set hg hbitmap
  refine ⟨hs.writeBytes hnot _ hbs, hf.inodesPerGroup_le, ?_, ?_, fun b hb => ?_, fun b hb => ?_⟩
  · show (v.inodeGroups.set i g').length ≤ 64
    rw [List.length_set]
    exact hf.groups_le
  · show ((v.inodeGroups.set i g').map InodeGroup.inodeBitmap).Nodup
    rw [hnames]
    exact hf.bitmaps_nodup
  · exact hf.bitmaps_apart b (hnames ▸ hb)
  · show (v.fs.writeBytes _ _ _).used b = true
    rw [Ext4FileSystem.used_writeBytes hs.blockSize hnot _ hbs]
    exact hf.bitmaps_used b (hnames ▸ hb)

/-- The counts agree again when the new bitmap has one clear bit less. -/
theorem Accounted.inodeTaken (hf : v.Formatted) (h : v.Accounted)
    (hg : v.inodeGroups[i]? = some g) (hbitmap : g'.inodeBitmap = g.inodeBitmap)
    (hfree : g'.freeInodesCount = g.freeInodesCount - 1)
    (hclear : clearCount bitmap v.inodesPerGroup + 1 =
      clearCount (v.fs.block g.inodeBitmap) v.inodesPerGroup) :
    (v.inodeTaken i g g' bitmap).Accounted := by
  have hs := hf.sound
  have hbs : v.fs.blockSize ≤ 4096 := Nat.le_of_eq hs.blockSize
  have hmem : g ∈ v.inodeGroups := List.mem_of_getElem? hg
  have hnot := hf.bitmaps_apart _ (List.mem_map_of_mem hmem)
  have hother : ∀ b, b ≠ g.inodeBitmap →
      (v.fs.writeBytes g.inodeBitmap bitmap v.fs.blockSize).block b = v.fs.block b :=
    fun b hne => Ext4FileSystem.block_writeBytes_of_ne hs.blockSize hne _ hbs
  have hself : ∀ m < v.inodesPerGroup, testBit ((v.fs.writeBytes g.inodeBitmap bitmap
      v.fs.blockSize).block g.inodeBitmap) m = testBit bitmap m := by
    intro m hm
    have hper := hf.inodesPerGroup_le
    have hlt : m / 8 < v.fs.blockSize := by
      rw [hs.blockSize]
      omega
    rw [Ext4FileSystem.block_writeBytes_self hs.blockSize _ _ hbs]
    simp only [testBit, if_pos hlt]
  have hold := h.groupInodes g hmem
  have hg' : g'.freeInodesCount.toNat = g.freeInodesCount.toNat - 1 := by
    rw [hfree]
    exact @toNat_sub_ofNat32 _ 1 (by omega)
  have hle := le_sum_map (fun g : InodeGroup => g.freeInodesCount.toNat) hmem
  have htotal := h.inodes
  have hsuper : (v.freeInodesCount - 1).toNat = v.freeInodesCount.toNat - 1 :=
    @toNat_sub_ofNat32 _ 1 (by omega)
  refine ⟨fun g₁ hg₁ => ?_, fun g₁ hg₁ => ?_, h.blocks, ?_⟩
  · show g₁.freeBlocksCount.toNat = clearCount ((v.fs.writeBytes _ _ _).block _) _
    rw [hother g₁.blockBitmap fun heq => hnot (heq ▸ List.mem_map_of_mem hg₁)]
    exact h.groupBlocks g₁ hg₁
  · show g₁.freeInodesCount.toNat = clearCount ((v.fs.writeBytes _ _ _).block _) v.inodesPerGroup
    obtain ⟨j, hj⟩ := List.mem_iff_getElem?.mp hg₁
    change (v.inodeGroups.set i g')[j]? = some g₁ at hj
    by_cases hji : j = i
    · subst hji
      rw [List.getElem?_set_self (List.getElem?_eq_some_iff.mp hg).1] at hj
      cases hj
      rw [hbitmap, clearCount_congr hself]
      omega
    · have hj' : v.inodeGroups[j]? = some g₁ := by
        rw [← hj]
        exact (List.getElem?_set_ne fun hij => hji hij.symm).symm
      rw [hother _ (hf.inodeBitmap_ne hg hj' hji)]
      exact h.groupInodes g₁ (List.mem_of_getElem? hj')
  · have hsum := sum_map_set (fun g => g.freeInodesCount.toNat) (b := g') hg
    show (v.freeInodesCount - 1).toNat =
      ((v.inodeGroups.set i g').map fun g => g.freeInodesCount.toNat).sum
    omega

end InodeBitmap

/-- **`alloc_inode`** keeps the counts. -/
theorem keeps_of_allocInode (hf : v.Formatted) (h : v.Accounted) {isDir : Bool} {n : ℕ}
    (ha : v.allocInode isDir = some (n, v')) : v'.Formatted ∧ v'.Accounted := by
  have hs := hf.sound
  obtain ⟨i, -, hround⟩ := List.exists_of_findSome?_eq_some ha
  split at hround
  · cases hround
  · rename_i g hg
    split at hround
    · cases hround
    · rename_i k g' dev' hgroup
      have hcount := h.groupInodes g (List.mem_of_getElem? hg)
      unfold Ext4FileSystem.block at hcount
      rw [hs.blockSize] at hgroup hcount
      obtain ⟨hbitmap, hfree, hk, hclear, hdev⟩ :=
        InodeGroup.allocInode_eq_some hf.inodesPerGroup_le hcount hgroup
      rw [← hs.blockSize] at hdev hclear
      -- the device is written at the inode bitmap only
      have htaken : v' = v.inodeTaken i g g' (setBit (v.fs.block g.inodeBitmap) k) := by
        cases hround
        rw [hdev]
        rfl
      have hset := @clearCount_setBit (v.fs.block g.inodeBitmap) v.inodesPerGroup k hk hclear
      rw [htaken]
      exact ⟨hf.inodeTaken hg hbitmap, .inodeTaken hf h hg hbitmap hfree hset⟩

end Volume

/-! ## Runs -/

/-- A call keeps the counts: blocks given back are used, their run passes the guard of
`dealloc_contiguous` and none of them holds a bitmap; no inode is given back. -/
def VolumeCall.Keeps (v : Volume) : VolumeCall → Prop
  | .allocInode _ => True
  | .allocOneBlock => True
  | .allocBlock _ => True
  | .deallocBlock blockNum blockCount => v.fs.FreesUsed blockNum blockCount ∧
    ∀ x ∈ List.range' blockNum blockCount, x ∉ v.fs.bitmaps ∧ x ∉ v.inodeBitmaps
  | .deallocInode _ _ => False

theorem VolumeCall.run_keeps {v v' : Volume} {c : VolumeCall} (hf : v.Formatted) (h : v.Accounted)
    (hc : c.Keeps v) (hrun : c.run v = some v') : v'.Formatted ∧ v'.Accounted := by
  cases c with
  | allocInode isDir =>
    obtain ⟨⟨n, w⟩, ha, rfl⟩ := Option.map_eq_some_iff.mp hrun
    exact Volume.keeps_of_allocInode hf h ha
  | allocOneBlock =>
    obtain ⟨⟨x, fs'⟩, ha, rfl⟩ := Option.map_eq_some_iff.mp hrun
    exact Volume.keeps_of_fresh hf h (hf.sound.allocOneBlock ha) (h.counted.allocOneBlock hf.sound ha)
  | allocBlock blockCount =>
    cases hrun
    rcases ha : v.fs.allocBlock blockCount with ⟨runs, fs'⟩
    have hcounted := h.counted.allocBlock hf.sound blockCount
    rw [ha] at hcounted
    exact Volume.keeps_of_fresh hf h (hf.sound.allocBlock ha).2 hcounted
  | deallocBlock blockNum blockCount =>
    obtain ⟨fs', hd, rfl⟩ := Option.map_eq_some_iff.mp hrun
    obtain ⟨hfrees, hnot⟩ := hc
    have hrel := hf.sound.deallocBlock (fun x hx => (hnot x hx).1) hd
    refine Volume.keeps_of_blocks hf h hrel.sound hrel.bitmaps ?_ ?_
      (h.counted.deallocBlock hf.sound hfrees hd)
    · intro b hb
      rw [hrel.used b fun hmem => (hnot b hmem).2 hb]
      exact hf.bitmaps_used b hb
    · exact fun b hb => hrel.block b (hf.bitmaps_apart b hb)
  | deallocInode globalInodeNum isDir => exact hc.elim

/-- **The counts are those of the bitmaps in every state of a run** whose calls all keep them. -/
theorem accounted_run {v v' : Volume} (hf : v.Formatted) (h : v.Accounted)
    (calls : List VolumeCall)
    (hc : Run.Along volumeStep (fun s c => ∀ v, s = some v → c.Keeps v) (some v) calls)
    (hrun : Run.exec volumeStep (some v) calls = some v') : v'.Accounted := by
  have hinv : ∀ v', Run.exec volumeStep (some v) calls = some v' → v'.Formatted ∧ v'.Accounted := by
    refine @Run.exec_invariant_along _ _ volumeStep _
      (fun s => ∀ v, s = some v → v.Formatted ∧ v.Accounted) ?_ _ ?_ _ hc
    · intro s c hs hk w hw
      cases s with
      | none => cases hw
      | some u => exact VolumeCall.run_keeps (hs u rfl).1 (hs u rfl).2 (hk u rfl) hw
    · rintro w ⟨⟩
      exact ⟨hf, h⟩
  exact (hinv v' hrun).2

/-- One group of 64 blocks and eight inodes: the bitmaps are in blocks 1 and 2, block 40 belongs
to inode 1. -/
def smallVolume : Volume where
  fs :=
    { blockSize := 4096
      blocksPerGroup := 64
      blockGroups := [{ blockBitmap := 1, freeBlocksCount := 60 }]
      freeBlocksCount := 60
      device := fun a =>
        if a = 4096 then 0x07#8 else if a = 4101 then 0x01#8 else if a = 8192 then 0x01#8 else 0#8
      inodeTable := fun _ =>
        { size := 0, linksCount := 1, extentsFl := true, inlineDataFl := false, block := fun _ => 0 } }
  inodesPerGroup := 8
  inodeGroups := [{ inodeBitmap := 2, freeInodesCount := 7, usedDirsCount := 0, itableUnused := 7 }]
  freeInodesCount := 7

theorem smallVolume_formatted : smallVolume.Formatted :=
  ⟨⟨by decide, by decide, by decide, by decide, by decide, by decide⟩, by decide, by decide,
    by decide, by decide, by decide⟩

theorem smallVolume_accounted : smallVolume.Accounted :=
  ⟨by decide +kernel, by decide +kernel, by decide, by decide⟩

/-- Block 40 is given back. -/
theorem accounted_run_block : ∃ v, Run.exec volumeStep (some smallVolume) [.deallocBlock 40 1] =
    some v ∧ v.Accounted := by
  refine ⟨_, rfl, accounted_run smallVolume_formatted smallVolume_accounted [.deallocBlock 40 1]
    ⟨?_, trivial⟩ rfl⟩
  rintro v ⟨⟩
  exact ⟨.inr ⟨by decide, by decide +kernel⟩, by decide⟩

/-- **An inode that is given back is not counted by the superblock.** -/
theorem dealloc_inode_miscounts : smallVolume.Formatted ∧ smallVolume.Accounted ∧
    ∃ v, Run.exec volumeStep (some smallVolume) [.deallocInode 1 false] = some v ∧
      ¬ v.Accounted := by
  refine ⟨smallVolume_formatted, smallVolume_accounted, _, rfl, fun h => ?_⟩
  exact absurd h.inodes (by decide)

end QuackOS.Ext4
