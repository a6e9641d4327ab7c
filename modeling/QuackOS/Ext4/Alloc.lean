import QuackOS.Ext4.Extent

/-!
# Block allocation

`block_group.rs` and the allocator of `fs.rs`: every block group has one bitmap, kept in a
block of the device, in which bit `n` of group `g` stands for block
`g * blocks_per_group + n`.

* `allocOneBlock`, `allocBlock` — take free blocks, which are zeroed on the device;
* `deallocBlock` — give a run of blocks back to the group its first block is in.

The specifications `Fresh` and `Released` say what a call does to the set of used blocks and
to the contents of the others.  They hold in a `Sound` file system, whose blocks are of
`EXT4_BLOCK_SIZE` bytes and whose bitmap blocks are themselves marked used.
-/

namespace QuackOS.Ext4

open Buffer Ext4ExtentBlock

/-! ## Groups -/

/-- `GroupDesc`: where the group's block bitmap is, and its count of free blocks. -/
structure GroupDesc where
  blockBitmap : ℕ
  freeBlocksCount : UInt32
deriving DecidableEq

namespace GroupDesc

/-- `GroupDesc::alloc_one_block`. -/
def allocOneBlock (g : GroupDesc) (dev : Buffer) (bs bitmapSize : ℕ) :
    Option (ℕ × GroupDesc × Buffer) :=
  if g.freeBlocksCount < 1 then none
  else (List.range (bitmapSize / bs)).findSome? fun i =>
    match Ext4Bitmap.alloc (readExt4Block dev (g.blockBitmap + i) bs) bitmapSize with
    | (some n, data) =>
      some (n + i * bs * 8, { g with freeBlocksCount := g.freeBlocksCount - 1 },
        writeExt4Block dev (g.blockBitmap + i) data bs)
    | (none, _) => none

/-- The inner loop of `GroupDesc::alloc_block`: runs are taken from one bitmap block until
the count is reached or the bitmap is full.  Each run has at least one block, so `blockCount`
rounds are enough. -/
def takeRuns (bitmapSize : ℕ) : (fuel blockCount : ℕ) → Buffer → List (ℕ × ℕ) × Buffer
  | 0, _, bitmap => ([], bitmap)
  | fuel + 1, blockCount, bitmap =>
    if blockCount = 0 then ([], bitmap)
    else
      match Ext4Bitmap.allocContiguous bitmap bitmapSize blockCount with
      | none => ([], bitmap)
      | some ((start, n), bitmap') =>
        let (runs, bitmap'') := takeRuns bitmapSize fuel (blockCount - n) bitmap'
        ((start, n) :: runs, bitmap'')

/-- The number of blocks in a list of runs. -/
def runTotal (runs : List (ℕ × ℕ)) : ℕ := (runs.map Prod.snd).sum

/-- One round of the outer loop of `GroupDesc::alloc_block`, over bitmap block `i`. -/
def allocBlockRound (bs bitmapSize : ℕ) (st : List (ℕ × ℕ) × GroupDesc × Buffer × ℕ) (i : ℕ) :
    List (ℕ × ℕ) × GroupDesc × Buffer × ℕ :=
  let (result, g, dev, blockCount) := st
  if blockCount = 0 then st
  else
    let (runs, bitmap) := takeRuns bitmapSize blockCount blockCount
      (readExt4Block dev (g.blockBitmap + i) bs)
    (result ++ runs.map fun (start, n) => (start + i * bs * 8, n),
      { g with freeBlocksCount := g.freeBlocksCount - UInt32.ofNat (runTotal runs) },
      if runs = [] then dev else writeExt4Block dev (g.blockBitmap + i) bitmap bs,
      blockCount - runTotal runs)

/-- `GroupDesc::alloc_block`. -/
def allocBlock (g : GroupDesc) (dev : Buffer) (bs bitmapSize blockCount : ℕ) :
    List (ℕ × ℕ) × GroupDesc × Buffer :=
  let (result, g', dev', _) := (List.range (bitmapSize / bs)).foldl
    (allocBlockRound bs bitmapSize) ([], g, dev, blockCount)
  (result, g', dev')

/-- `GroupDesc::dealloc_block`. -/
def deallocBlock (g : GroupDesc) (dev : Buffer) (localBlockNum blockCount bs bitmapSize : ℕ) :
    GroupDesc × Buffer :=
  let blockId := g.blockBitmap + localBlockNum / (bs * 8)
  let blockOffset := localBlockNum % (bs * 8)
  let data := Ext4Bitmap.deallocContiguous (readExt4Block dev blockId bs) blockOffset blockCount
    bitmapSize
  ({ g with freeBlocksCount := g.freeBlocksCount + UInt32.ofNat blockCount },
    writeExt4Block dev blockId data bs)

end GroupDesc

/-! ## The file system -/

/-- `Ext4InodeDisk`: the size, the link count, the two flags that say what `i_block` holds,
and `i_block` itself. -/
structure Ext4InodeDisk where
  size : ℕ
  linksCount : UInt16
  extentsFl : Bool
  inlineDataFl : Bool
  block : Buffer

/-- `Ext4FileSystem`, with the device it is on.  The inode tables, in areas of the device of
their own, are kept as the records they hold. -/
structure Ext4FileSystem where
  blockSize : ℕ
  blocksPerGroup : ℕ
  blockGroups : List GroupDesc
  freeBlocksCount : UInt64
  device : Buffer
  inodeTable : ℕ → Ext4InodeDisk

namespace Ext4FileSystem

/-- The size in bytes of a group's block bitmap. -/
def blockBitmapSize (fs : Ext4FileSystem) : ℕ := fs.blocksPerGroup / 8

/-- Write `len` bytes at the start of a block. -/
def writeBytes (fs : Ext4FileSystem) (blockNum : ℕ) (data : Buffer) (len : ℕ) :
    Ext4FileSystem :=
  { fs with device := Buffer.write fs.device (blockNum * fs.blockSize) data len }

/-- Zero the `count` blocks from `start` on. -/
def zeroBlocks (fs : Ext4FileSystem) (start count : ℕ) : Ext4FileSystem :=
  (List.range' start count).foldl (fun fs b => fs.writeBytes b (fun _ => 0) fs.blockSize) fs

/-- `Ext4FileSystem::alloc_one_block`; `none` is the panic when no group has a free block. -/
def allocOneBlock (fs : Ext4FileSystem) : Option (ℕ × Ext4FileSystem) :=
  (List.range fs.blockGroups.length).findSome? fun i =>
    match fs.blockGroups[i]? with
    | none => none
    | some g =>
      match g.allocOneBlock fs.device fs.blockSize fs.blockBitmapSize with
      | none => none
      | some (localStart, g', dev) =>
        let globalStart := localStart + fs.blocksPerGroup * i
        let fs' := { fs with
          blockGroups := fs.blockGroups.set i g'
          freeBlocksCount := fs.freeBlocksCount - 1
          device := dev }
        some (globalStart, fs'.writeBytes globalStart (fun _ => 0) fs.blockSize)

/-- The loop of `Ext4FileSystem::alloc_block` over the runs one group gave, the file system's
`i`-th. -/
def takeAllocated (i : ℕ) : List (ℕ × ℕ) → List (ℕ × ℕ) → ℕ → Ext4FileSystem →
    List (ℕ × ℕ) × ℕ × Ext4FileSystem
  | [], result, remaining, fs => (result, remaining, fs)
  | (localStart, count) :: runs, result, remaining, fs =>
    let globalStart := localStart + fs.blocksPerGroup * i
    let fs' := { fs with
      freeBlocksCount := fs.freeBlocksCount - UInt64.ofNat count }.zeroBlocks globalStart count
    if remaining - count = 0 then (result ++ [(globalStart, count)], 0, fs')
    else takeAllocated i runs (result ++ [(globalStart, count)]) (remaining - count) fs'

/-- One round of `Ext4FileSystem::alloc_block`, over group `i`. -/
def allocBlockRound (st : List (ℕ × ℕ) × ℕ × Ext4FileSystem) (i : ℕ) :
    List (ℕ × ℕ) × ℕ × Ext4FileSystem :=
  let (result, remaining, fs) := st
  if remaining = 0 then st
  else
    match fs.blockGroups[i]? with
    | none => st
    | some g =>
      let (allocated, g', dev) :=
        g.allocBlock fs.device fs.blockSize fs.blockBitmapSize remaining
      let fs' := { fs with blockGroups := fs.blockGroups.set i g', device := dev }
      if allocated = [] then (result, remaining, fs')
      else takeAllocated i allocated result remaining fs'

/-- `Ext4FileSystem::alloc_block`: as many runs as it takes, or as there are. -/
def allocBlock (fs : Ext4FileSystem) (blockCount : ℕ) : List (ℕ × ℕ) × Ext4FileSystem :=
  let (result, _, fs') := (List.range fs.blockGroups.length).foldl allocBlockRound
    ([], blockCount, fs)
  (result, fs')

/-- `Ext4FileSystem::dealloc_block`; `none` is the panic on a block outside every group. -/
def deallocBlock (fs : Ext4FileSystem) (blockNum blockCount : ℕ) : Option Ext4FileSystem :=
  let groupId := blockNum / fs.blocksPerGroup
  match fs.blockGroups[groupId]? with
  | none => none
  | some g =>
    let (g', dev) := g.deallocBlock fs.device (blockNum % fs.blocksPerGroup) blockCount
      fs.blockSize fs.blockBitmapSize
    some { fs with
      blockGroups := fs.blockGroups.set groupId g'
      freeBlocksCount := fs.freeBlocksCount + UInt64.ofNat blockCount
      device := dev }

/-! ## What the bitmaps say -/

/-- The contents of a block. -/
def block (fs : Ext4FileSystem) (x : ℕ) : Buffer := readExt4Block fs.device x fs.blockSize

/-- The blocks the bitmaps are kept in. -/
def bitmaps (fs : Ext4FileSystem) : List ℕ := fs.blockGroups.map GroupDesc.blockBitmap

/-- Block `x` is marked used in its group's bitmap. -/
def used (fs : Ext4FileSystem) (x : ℕ) : Bool :=
  match fs.bitmaps[x / fs.blocksPerGroup]? with
  | some bitmap => testBit (fs.block bitmap) (x % fs.blocksPerGroup)
  | none => false

/-- The file systems the driver works on: blocks of `EXT4_BLOCK_SIZE` bytes, one bitmap block
per group, no more groups than the descriptors in one block (`Ext4FileSystem::open` asserts
it), and the bitmap blocks marked used. -/
structure Sound (fs : Ext4FileSystem) : Prop where
  blockSize : fs.blockSize = 4096
  blocksPerGroup_pos : 0 < fs.blocksPerGroup
  blocksPerGroup_le : fs.blocksPerGroup ≤ 32768
  groups_le : fs.blockGroups.length ≤ 64
  bitmaps_nodup : fs.bitmaps.Nodup
  bitmaps_used : ∀ x ∈ fs.bitmaps, fs.used x = true

variable {fs fs' fs'' : Ext4FileSystem}

theorem length_bitmaps (fs : Ext4FileSystem) : fs.bitmaps.length = fs.blockGroups.length := by
  simp [bitmaps]

/-- A used block belongs to a group. -/
theorem Sound.lt_of_used (h : fs.Sound) {x : ℕ} (hx : fs.used x = true) :
    x < 64 * 32768 := by
  unfold used at hx
  split at hx
  · rename_i bitmap hget
    obtain ⟨hlt, -⟩ := List.getElem?_eq_some_iff.mp hget
    rw [length_bitmaps] at hlt
    have hgroups := h.groups_le
    have hmod := Nat.mod_lt x h.blocksPerGroup_pos
    have hdiv := Nat.div_add_mod x fs.blocksPerGroup
    have hle := h.blocksPerGroup_le
    have : fs.blocksPerGroup * (x / fs.blocksPerGroup) ≤ 32768 * 63 :=
      Nat.mul_le_mul hle (by omega)
    omega
  · cases hx

/-! ### Writing into a block -/

@[simp] theorem bitmaps_writeBytes (fs : Ext4FileSystem) (x : ℕ) (data : Buffer) (n : ℕ) :
    (fs.writeBytes x data n).bitmaps = fs.bitmaps := rfl

@[simp] theorem blockSize_writeBytes (fs : Ext4FileSystem) (x : ℕ) (data : Buffer) (n : ℕ) :
    (fs.writeBytes x data n).blockSize = fs.blockSize := rfl

theorem block_writeBytes_self (h : fs.blockSize = 4096) (x : ℕ) (data : Buffer) {n : ℕ}
    (hn : n ≤ 4096) :
    (fs.writeBytes x data n).block x = fun i => if i < n then data i else fs.block x i := by
  unfold block writeBytes readExt4Block
  rw [h]
  exact read_write_self fs.device data x hn

theorem block_writeBytes_of_ne (h : fs.blockSize = 4096) {x y : ℕ} (hne : y ≠ x) (data : Buffer)
    {n : ℕ} (hn : n ≤ 4096) : (fs.writeBytes x data n).block y = fs.block y := by
  unfold block writeBytes readExt4Block
  rw [h]
  exact read_write_of_ne fs.device data hne hn

theorem used_congr (hbitmaps : fs'.bitmaps = fs.bitmaps)
    (hper : fs'.blocksPerGroup = fs.blocksPerGroup)
    (hblock : ∀ x ∈ fs.bitmaps, fs'.block x = fs.block x) (y : ℕ) : fs'.used y = fs.used y := by
  unfold used
  rw [hbitmaps, hper]
  split
  · rename_i bitmap hget
    rw [hblock bitmap (List.mem_of_getElem? hget)]
  · rfl

theorem used_writeBytes (h : fs.blockSize = 4096) {x : ℕ} (hx : x ∉ fs.bitmaps) (data : Buffer)
    {n : ℕ} (hn : n ≤ 4096) (y : ℕ) : (fs.writeBytes x data n).used y = fs.used y := by
  apply used_congr
  · rfl
  · rfl
  · intro b hb
    apply block_writeBytes_of_ne h _ data hn
    rintro rfl
    exact hx hb

theorem Sound.writeBytes (h : fs.Sound) {x : ℕ} (hx : x ∉ fs.bitmaps) (data : Buffer) {n : ℕ}
    (hn : n ≤ 4096) : (fs.writeBytes x data n).Sound where
  blockSize := h.blockSize
  blocksPerGroup_pos := h.blocksPerGroup_pos
  blocksPerGroup_le := h.blocksPerGroup_le
  groups_le := h.groups_le
  bitmaps_nodup := h.bitmaps_nodup
  bitmaps_used := fun y hy => by
    rw [used_writeBytes h.blockSize hx data hn]
    exact h.bitmaps_used y hy

/-! ### Rewriting a bitmap -/

theorem bitmaps_set {i : ℕ} {g g' : GroupDesc} (hg : fs.blockGroups[i]? = some g)
    (hbitmap : g'.blockBitmap = g.blockBitmap)
    (hgroups : fs'.blockGroups = fs.blockGroups.set i g') : fs'.bitmaps = fs.bitmaps := by
  obtain ⟨hi, hgi⟩ := List.getElem?_eq_some_iff.mp hg
  unfold bitmaps
  rw [hgroups, List.map_set, hbitmap, ← hgi]
  refine List.ext_getElem (by simp) fun j h1 h2 => ?_
  rw [List.getElem_set]
  split
  · rename_i hij
    subst hij
    simp
  · rfl

/-- `fs'` is `fs` with the bitmap of group `i` replaced. -/
structure Remapped (fs fs' : Ext4FileSystem) (i : ℕ) (data : Buffer) : Prop where
  blockSize : fs'.blockSize = fs.blockSize
  blocksPerGroup : fs'.blocksPerGroup = fs.blocksPerGroup
  bitmaps : fs'.bitmaps = fs.bitmaps
  block : ∀ x ∉ fs.bitmaps, fs'.block x = fs.block x
  used : ∀ y, fs'.used y =
    if y / fs.blocksPerGroup = i then testBit data (y % fs.blocksPerGroup) else fs.used y

theorem Sound.remapped (h : fs.Sound) (fs' : Ext4FileSystem) {i : ℕ} {g g' : GroupDesc} {data : Buffer}
    (hg : fs.blockGroups[i]? = some g) (hbitmap : g'.blockBitmap = g.blockBitmap)
    (hsize : fs'.blockSize = fs.blockSize) (hper : fs'.blocksPerGroup = fs.blocksPerGroup)
    (hgroups : fs'.blockGroups = fs.blockGroups.set i g')
    (hdev : fs'.device = writeExt4Block fs.device g.blockBitmap data fs.blockSize) :
    Remapped fs fs' i data := by
  have hdev' : ∀ x, fs'.block x = (fs.writeBytes g.blockBitmap data fs.blockSize).block x := by
    intro x
    unfold block
    rw [hdev, hsize]
    rfl
  have hn : fs.blockSize ≤ 4096 := h.blockSize.le
  have hself := block_writeBytes_self h.blockSize g.blockBitmap data hn
  have hne : ∀ x, x ≠ g.blockBitmap → fs'.block x = fs.block x := fun x hx => by
    rw [hdev', block_writeBytes_of_ne h.blockSize hx data hn]
  have hget : fs.bitmaps[i]? = some g.blockBitmap := by
    simp [bitmaps, hg]
  have hbitmaps : fs'.bitmaps = fs.bitmaps := bitmaps_set hg hbitmap hgroups
  refine ⟨hsize, hper, hbitmaps, fun x hx => hne x ?_, fun y => ?_⟩
  · rintro rfl
    exact hx (List.mem_of_getElem? hget)
  · have hlt : y % fs.blocksPerGroup / 8 < fs.blockSize := by
      have := Nat.mod_lt y h.blocksPerGroup_pos
      have := h.blocksPerGroup_le
      rw [h.blockSize]
      omega
    unfold used
    rw [hbitmaps, hper]
    split
    · rename_i bitmap hy
      by_cases hyi : y / fs.blocksPerGroup = i
      · rw [hyi, hget, Option.some.injEq] at hy
        rw [if_pos hyi, ← hy, hdev', hself]
        simp only [testBit, hlt, if_true]
      · have : bitmap ≠ g.blockBitmap := by
          rintro rfl
          exact hyi ((List.getElem?_inj (List.getElem?_eq_some_iff.mp hy).1
            h.bitmaps_nodup).mp (hy.trans hget.symm))
        rw [if_neg hyi, hne _ this]
    · rename_i hy
      have hyi : y / fs.blocksPerGroup ≠ i := by
        rintro hyi
        rw [hyi, hget] at hy
        cases hy
      rw [if_neg hyi]

/-! ### Taking blocks -/

/-- The blocks `xs` were free and are now used and zeroed; used blocks stay used, and no other
block changed. -/
structure Fresh (fs fs' : Ext4FileSystem) (xs : List ℕ) : Prop where
  sound : fs'.Sound
  bitmaps : fs'.bitmaps = fs.bitmaps
  nodup : xs.Nodup
  free : ∀ x ∈ xs, fs.used x = false
  used_mono : ∀ x, fs.used x = true → fs'.used x = true
  used_of_mem : ∀ x ∈ xs, fs'.used x = true
  block : ∀ x, x ∉ fs.bitmaps → x ∉ xs → fs'.block x = fs.block x
  zero : ∀ x ∈ xs, fs'.block x = fun _ => 0

theorem Sound.fresh_nil (h : fs.Sound) : Fresh fs fs [] := by
  refine ⟨h, rfl, List.nodup_nil, by simp, fun _ hx => hx, by simp, fun _ _ _ => rfl, by simp⟩

theorem Fresh.not_mem_of_used {xs : List ℕ} (h : Fresh fs fs' xs) {x : ℕ}
    (hx : fs.used x = true) : x ∉ xs := by
  intro hmem
  rw [h.free x hmem] at hx
  cases hx

theorem Fresh.not_bitmap {xs : List ℕ} (h : Fresh fs fs' xs) (hs : fs.Sound) {x : ℕ}
    (hx : x ∈ xs) : x ∉ fs.bitmaps := fun hb => h.not_mem_of_used (hs.bitmaps_used x hb) hx

theorem Fresh.lt {xs : List ℕ} (h : Fresh fs fs' xs) {x : ℕ} (hx : x ∈ xs) : x < 64 * 32768 :=
  h.sound.lt_of_used (h.used_of_mem x hx)

theorem Fresh.trans {xs ys : List ℕ} (h : Fresh fs fs' xs) (hs : fs.Sound)
    (h' : Fresh fs' fs'' ys) : Fresh fs fs'' (xs ++ ys) := by
  have hdisj : ∀ x ∈ xs, x ∉ ys := fun x hx => h'.not_mem_of_used (h.used_of_mem x hx)
  refine ⟨h'.sound, h'.bitmaps.trans h.bitmaps, ?_, ?_, ?_, ?_, ?_, ?_⟩
  · rw [List.nodup_append']
    exact ⟨h.nodup, h'.nodup, fun x hx hy => hdisj x hx hy⟩
  · intro x hx
    rcases List.mem_append.mp hx with hx | hx
    · exact h.free x hx
    · by_contra hused
      have := h.used_mono x (by simpa using hused)
      rw [h'.free x hx] at this
      cases this
  · exact fun x hx => h'.used_mono x (h.used_mono x hx)
  · intro x hx
    rcases List.mem_append.mp hx with hx | hx
    · exact h'.used_mono x (h.used_of_mem x hx)
    · exact h'.used_of_mem x hx
  · intro x hb hx
    rw [List.mem_append, not_or] at hx
    rw [h'.block x (h.bitmaps ▸ hb) hx.2, h.block x hb hx.1]
  · intro x hx
    rcases List.mem_append.mp hx with hx | hx
    · rw [h'.block x (by rw [h.bitmaps]; exact h.not_bitmap hs hx) (hdisj x hx), h.zero x hx]
    · exact h'.zero x hx

@[simp] theorem blocksPerGroup_zeroBlocks (fs : Ext4FileSystem) (start count : ℕ) :
    (fs.zeroBlocks start count).blocksPerGroup = fs.blocksPerGroup := by
  unfold zeroBlocks
  induction List.range' start count generalizing fs with
  | nil => rfl
  | cons x xs ih => rw [List.foldl_cons, ih]; rfl

theorem zeroBlocks_eq (h : fs.Sound) (start count : ℕ)
    (hx : ∀ x ∈ List.range' start count, x ∉ fs.bitmaps) :
    (fs.zeroBlocks start count).Sound ∧
      (fs.zeroBlocks start count).bitmaps = fs.bitmaps ∧
      (∀ y, (fs.zeroBlocks start count).used y = fs.used y) ∧
      (∀ y ∉ List.range' start count, (fs.zeroBlocks start count).block y = fs.block y) ∧
      ∀ y ∈ List.range' start count, (fs.zeroBlocks start count).block y = fun _ => 0 := by
  induction count generalizing fs start with
  | zero => exact ⟨h, rfl, fun _ => rfl, fun _ _ => rfl, fun y hy => absurd hy (by simp)⟩
  | succ count ih =>
    have hstep : fs.zeroBlocks start (count + 1) =
        (fs.writeBytes start (fun _ => 0) fs.blockSize).zeroBlocks (start + 1) count := rfl
    have hn : fs.blockSize ≤ 4096 := h.blockSize.le
    have hstart : start ∉ fs.bitmaps := hx start (by simp)
    obtain ⟨h1, h2, h3, h4, h5⟩ := ih (h.writeBytes hstart (fun _ => 0) hn)
      (start + 1) fun x hx' => hx x (by
        rw [List.mem_range'_1] at hx' ⊢
        omega)
    rw [hstep]
    refine ⟨h1, h2, fun y => ?_, fun y hy => ?_, fun y hy => ?_⟩
    · rw [h3, used_writeBytes h.blockSize hstart _ hn]
    · rw [List.mem_range'_1] at hy
      rw [h4 y (by rw [List.mem_range'_1]; omega),
        block_writeBytes_of_ne h.blockSize (by omega) _ hn]
    · by_cases hy' : y ∈ List.range' (start + 1) count
      · exact h5 y hy'
      · rw [List.mem_range'_1] at hy hy'
        have hyeq : y = start := by omega
        rw [h4 y (by rw [List.mem_range'_1]; omega), hyeq,
          block_writeBytes_self h.blockSize _ _ hn, h.blockSize]
        funext i
        by_cases hi : i < 4096
        · simp [hi]
        · simp [hi, block, readExt4Block, Buffer.read, ext4BlockSize]

/-- The blocks of a list of runs. -/
def runBlocks (runs : List (ℕ × ℕ)) : List ℕ := runs.flatMap fun (start, n) => List.range' start n

/-- Blocks of one group whose bits were clear and are set now, zeroed: they are fresh. -/
theorem Remapped.fresh {fs₁ : Ext4FileSystem} {i : ℕ} {data : Buffer} {xs : List ℕ}
    (hs : fs.Sound) (h : Remapped fs fs₁ i data) (hnodup : xs.Nodup)
    (hgroup : ∀ x ∈ xs, x / fs.blocksPerGroup = i)
    (hfree : ∀ x ∈ xs, fs.used x = false)
    (hset : ∀ x ∈ xs, testBit data (x % fs.blocksPerGroup) = true)
    (hmono : ∀ x, x / fs.blocksPerGroup = i → fs.used x = true →
      testBit data (x % fs.blocksPerGroup) = true)
    (hzero : fs₁.Sound → (∀ x ∈ xs, x ∉ fs₁.bitmaps) →
      fs'.Sound ∧ fs'.bitmaps = fs₁.bitmaps ∧ (∀ y, fs'.used y = fs₁.used y) ∧
        (∀ y ∉ xs, fs'.block y = fs₁.block y) ∧ ∀ y ∈ xs, fs'.block y = fun _ => 0) :
    Fresh fs fs' xs := by
  have hused : ∀ x, fs.used x = true → fs₁.used x = true := by
    intro x hx
    rw [h.used]
    split
    · exact hmono x ‹_› hx
    · exact hx
  have hsound : fs₁.Sound := by
    refine ⟨h.blockSize.trans hs.blockSize, ?_, ?_, ?_, ?_, ?_⟩
    · rw [h.blocksPerGroup]
      exact hs.blocksPerGroup_pos
    · rw [h.blocksPerGroup]
      exact hs.blocksPerGroup_le
    · rw [← length_bitmaps, h.bitmaps, length_bitmaps]
      exact hs.groups_le
    · rw [h.bitmaps]
      exact hs.bitmaps_nodup
    · rw [h.bitmaps]
      exact fun x hx => hused x (hs.bitmaps_used x hx)
  have hnot : ∀ x ∈ xs, x ∉ fs₁.bitmaps := by
    intro x hx hb
    rw [h.bitmaps] at hb
    have := hfree x hx
    rw [hs.bitmaps_used x hb] at this
    cases this
  obtain ⟨h1, h2, h3, h4, h5⟩ := hzero hsound hnot
  refine ⟨h1, h2.trans h.bitmaps, hnodup, hfree, fun x hx => ?_, fun x hx => ?_, ?_, h5⟩
  · rw [h3]
    exact hused x hx
  · rw [h3, h.used, if_pos (hgroup x hx)]
    exact hset x hx
  · intro x hb hx
    rw [h4 x hx, h.block x hb]

end Ext4FileSystem

/-- What a group takes is a clear bit of its bitmap, which it sets. -/
theorem GroupDesc.allocOneBlock_eq_some {g g' : GroupDesc} {dev dev' : Buffer} {size n : ℕ}
    (hsize : size ≤ 4096) (h : g.allocOneBlock dev 4096 size = some (n, g', dev')) :
    size = 4096 ∧ g'.blockBitmap = g.blockBitmap ∧ n < 32768 ∧
      testBit (readExt4Block dev g.blockBitmap 4096) n = false ∧
      dev' = writeExt4Block dev g.blockBitmap
        (setBit (readExt4Block dev g.blockBitmap 4096) n) 4096 := by
  unfold GroupDesc.allocOneBlock at h
  split at h
  · cases h
  · obtain ⟨i, hi, hround⟩ := List.exists_of_findSome?_eq_some h
    rw [List.mem_range] at hi
    have hfull : size = 4096 := by omega
    have hi0 : i = 0 := by omega
    subst hi0
    split at hround
    · rename_i m data halloc
      cases hround
      obtain ⟨hlt, hclear, hset⟩ := Ext4Bitmap.alloc_eq_some halloc
      rw [Nat.add_zero] at hclear hset ⊢
      subst hset
      have hm : m < 32768 := hlt
      exact ⟨hfull, rfl, by omega, by simpa using hclear, by simp⟩
    · cases hround

/-- Clear bits were taken from `bitmap`, giving `bitmap'`. -/
structure Ext4Bitmap.Taken (bitmap bitmap' : Buffer) (ms : List ℕ) : Prop where
  nodup : ms.Nodup
  clear : ∀ m ∈ ms, testBit bitmap m = false
  lt : ∀ m ∈ ms, m < 32768
  set : ∀ m ∈ ms, testBit bitmap' m = true
  mono : ∀ m, testBit bitmap m = true → testBit bitmap' m = true

open Ext4FileSystem (runBlocks) in
/-- The runs a group takes are disjoint runs of clear bits of its bitmap. -/
theorem GroupDesc.takeRuns_taken {size fuel count : ℕ} {bitmap : Buffer} :
    Ext4Bitmap.Taken bitmap (takeRuns size fuel count bitmap).2
      (runBlocks (takeRuns size fuel count bitmap).1) := by
  induction fuel generalizing count bitmap with
  | zero => exact ⟨List.nodup_nil, by simp [takeRuns, runBlocks], by simp [takeRuns, runBlocks],
      by simp [takeRuns, runBlocks], fun _ hm => hm⟩
  | succ fuel ih =>
    unfold takeRuns
    split
    · exact ⟨List.nodup_nil, by simp [runBlocks], by simp [runBlocks], by simp [runBlocks],
        fun _ hm => hm⟩
    · rename_i hcount
      split
      · exact ⟨List.nodup_nil, by simp [runBlocks], by simp [runBlocks], by simp [runBlocks],
          fun _ hm => hm⟩
      · rename_i start n bitmap' halloc
        obtain ⟨hclear, -, -, hend, rfl⟩ :=
          Ext4Bitmap.allocContiguous_eq_some (Nat.pos_of_ne_zero hcount) halloc
        have hrest := @ih (count - n) (setRange bitmap start n)
        simp only [runBlocks, List.flatMap_cons] at hrest ⊢
        have hmono : ∀ m, testBit bitmap m = true → testBit (setRange bitmap start n) m = true :=
          fun m hm => by simp [testBit_setRange, hm]
        have hin : ∀ m ∈ List.range' start n, testBit (setRange bitmap start n) m = true := by
          intro m hm
          rw [List.mem_range'_1] at hm
          simp [testBit_setRange, hm]
        refine ⟨?_, ?_, ?_, ?_, fun m hm => hrest.mono m (hmono m hm)⟩
        · rw [List.nodup_append']
          refine ⟨List.nodup_range', hrest.nodup, fun m hm hm' => ?_⟩
          have := hrest.clear m hm'
          rw [hin m hm] at this
          cases this
        · intro m hm
          rcases List.mem_append.mp hm with hm | hm
          · rw [List.mem_range'_1] at hm
            exact hclear m hm.1 hm.2
          · have := hrest.clear m hm
            rw [testBit_setRange, Bool.or_eq_false_iff] at this
            exact this.2
        · intro m hm
          rcases List.mem_append.mp hm with hm | hm
          · rw [List.mem_range'_1] at hm
            have : ext4BlockSize * 8 = 32768 := rfl
            omega
          · exact hrest.lt m hm
        · intro m hm
          rcases List.mem_append.mp hm with hm | hm
          · exact hrest.mono m (hin m hm)
          · exact hrest.set m hm

/-- A run is not empty and fits in one group. -/
def RunFits (run : ℕ × ℕ) : Prop := 0 < run.2 ∧ run.2 ≤ 32768

theorem GroupDesc.takeRuns_fits {size fuel count : ℕ} {bitmap : Buffer} :
    ∀ run ∈ (takeRuns size fuel count bitmap).1, RunFits run := by
  induction fuel generalizing count bitmap with
  | zero => simp [takeRuns]
  | succ fuel ih =>
    unfold takeRuns
    split
    · simp
    · rename_i hcount
      split
      · simp
      · rename_i start n bitmap' halloc
        obtain ⟨-, hpos, -, hend, -⟩ :=
          Ext4Bitmap.allocContiguous_eq_some (Nat.pos_of_ne_zero hcount) halloc
        have hsize : ext4BlockSize * 8 = 32768 := rfl
        intro run hrun
        rcases List.mem_cons.mp hrun with rfl | hrun
        · exact ⟨hpos, by dsimp only; omega⟩
        · exact ih run hrun

open Ext4FileSystem (runBlocks) in
/-- The runs a group hands out are runs of clear bits of its bitmap, which is written back
with these set. -/
theorem GroupDesc.allocBlock_taken {g g' : GroupDesc} {dev dev' : Buffer} {size count : ℕ}
    {runs : List (ℕ × ℕ)} (hsize : size ≤ 4096)
    (h : g.allocBlock dev 4096 size count = (runs, g', dev')) :
    g'.blockBitmap = g.blockBitmap ∧ (∀ run ∈ runs, RunFits run) ∧ ((runs = [] ∧ dev' = dev) ∨
      (size = 4096 ∧ ∃ data, dev' = writeExt4Block dev g.blockBitmap data 4096 ∧
        Ext4Bitmap.Taken (readExt4Block dev g.blockBitmap 4096) data (runBlocks runs))) := by
  unfold GroupDesc.allocBlock at h
  rcases Nat.lt_or_ge size 4096 with hlt | hge
  · rw [Nat.div_eq_of_lt hlt] at h
    cases h
    exact ⟨rfl, by simp, Or.inl ⟨rfl, rfl⟩⟩
  · have hfull : size = 4096 := by omega
    subst hfull
    simp only [Nat.div_self (show 0 < 4096 by omega), List.range_one, List.foldl_cons,
      List.foldl_nil, allocBlockRound] at h
    split at h
    · cases h
      exact ⟨rfl, by simp, Or.inl ⟨rfl, rfl⟩⟩
    · simp only [Nat.add_zero, Nat.zero_mul, List.nil_append, Prod.mk.eta, List.map_id'] at h
      have htaken := @takeRuns_taken 4096 count count (readExt4Block dev g.blockBitmap 4096)
      cases h
      refine ⟨rfl, takeRuns_fits, ?_⟩
      by_cases hnil : (takeRuns 4096 count count (readExt4Block dev g.blockBitmap 4096)).1 = []
      · exact Or.inl ⟨hnil, by rw [if_pos hnil]⟩
      · refine Or.inr ⟨rfl, _, ?_, htaken⟩
        rw [if_neg hnil]

/-- A group with one bitmap block frees in that block. -/
theorem GroupDesc.deallocBlock_eq {g g' : GroupDesc} {dev dev' : Buffer}
    {start count bs size : ℕ} (hlt : start < bs * 8)
    (h : g.deallocBlock dev start count bs size = (g', dev')) :
    g'.blockBitmap = g.blockBitmap ∧ dev' = writeExt4Block dev g.blockBitmap
      (Ext4Bitmap.deallocContiguous (readExt4Block dev g.blockBitmap bs) start count size) bs := by
  unfold GroupDesc.deallocBlock at h
  rw [Nat.div_eq_of_lt hlt, Nat.mod_eq_of_lt hlt, Nat.add_zero] at h
  cases h
  exact ⟨rfl, rfl⟩

namespace Ext4FileSystem

variable {fs fs' fs'' : Ext4FileSystem}

/-- The bit of a block in the bitmap of its group. -/
theorem used_eq_testBit {i : ℕ} {g : GroupDesc} (hg : fs.blockGroups[i]? = some g) {x : ℕ}
    (hx : x / fs.blocksPerGroup = i) :
    fs.used x = testBit (fs.block g.blockBitmap) (x % fs.blocksPerGroup) := by
  have hget : fs.bitmaps[i]? = some g.blockBitmap := by
    simp [bitmaps, hg]
  rw [used, hx, hget]

theorem Sound.bitmapSize_le (h : fs.Sound) : fs.blockBitmapSize ≤ 4096 := by
  have := h.blocksPerGroup_le
  unfold blockBitmapSize
  omega

/-- **`alloc_one_block`** hands out a block that was free, zeroed. -/
theorem Sound.allocOneBlock (h : fs.Sound) {x : ℕ} (ha : fs.allocOneBlock = some (x, fs')) :
    Fresh fs fs' [x] := by
  obtain ⟨i, -, hround⟩ := List.exists_of_findSome?_eq_some ha
  split at hround
  · cases hround
  · rename_i g hg
    split at hround
    · cases hround
    · rename_i n g' dev' hgroup
      cases hround
      rw [h.blockSize] at hgroup
      obtain ⟨hsize, hbitmap, hn, hclear, hdev⟩ :=
        GroupDesc.allocOneBlock_eq_some h.bitmapSize_le hgroup
      have hper : fs.blocksPerGroup = 32768 := by
        have := h.blocksPerGroup_le
        unfold blockBitmapSize at hsize
        omega
      rw [← h.blockSize] at hdev hclear
      have hdiv : (n + fs.blocksPerGroup * i) / fs.blocksPerGroup = i := by
        rw [hper]
        omega
      have hmod : (n + fs.blocksPerGroup * i) % fs.blocksPerGroup = n := by
        rw [hper]
        omega
      have hremap := h.remapped { fs with
        blockGroups := fs.blockGroups.set i g', freeBlocksCount := fs.freeBlocksCount - 1,
        device := dev' } hg hbitmap rfl rfl rfl hdev
      refine hremap.fresh h (List.nodup_singleton _) ?_ ?_ ?_ ?_ ?_
      · rintro x hx
        rw [List.mem_singleton.mp hx, hdiv]
      · rintro x hx
        rw [List.mem_singleton.mp hx, used_eq_testBit hg hdiv, hmod]
        exact hclear
      · rintro x hx
        rw [List.mem_singleton.mp hx, hmod]
        simp
      · intro x hx hused
        rw [used_eq_testBit hg hx] at hused
        rw [testBit_setBit, Bool.or_eq_true]
        exact Or.inr hused
      · intro hsound hnot
        exact zeroBlocks_eq hsound (n + fs.blocksPerGroup * i) 1 hnot

/-- The runs of group `i` as runs of the file system. -/
def globalRuns (per i : ℕ) (runs : List (ℕ × ℕ)) : List (ℕ × ℕ) :=
  runs.map fun (start, n) => (start + per * i, n)

/-- The loop over the runs of one group returns runs it was given, in order, zeroed. -/
theorem takeAllocated_spec (hs : fs.Sound) (i : ℕ) (runs result : List (ℕ × ℕ)) (remaining : ℕ)
    (hnot : ∀ x ∈ runBlocks (globalRuns fs.blocksPerGroup i runs), x ∉ fs.bitmaps) :
    ∃ taken, taken <+: globalRuns fs.blocksPerGroup i runs ∧
      (takeAllocated i runs result remaining fs).1 = result ++ taken ∧
      (takeAllocated i runs result remaining fs).2.2.Sound ∧
      (takeAllocated i runs result remaining fs).2.2.bitmaps = fs.bitmaps ∧
      (∀ y, (takeAllocated i runs result remaining fs).2.2.used y = fs.used y) ∧
      (∀ y ∉ runBlocks taken,
        (takeAllocated i runs result remaining fs).2.2.block y = fs.block y) ∧
      ∀ y ∈ runBlocks taken,
        (takeAllocated i runs result remaining fs).2.2.block y = fun _ => 0 := by
  induction runs generalizing fs result remaining with
  | nil =>
    exact ⟨[], List.nil_prefix, by simp [takeAllocated], hs, rfl, fun _ => rfl, fun _ _ => rfl,
      by simp [runBlocks]⟩
  | cons run runs ih =>
    obtain ⟨start, n⟩ := run
    set fs₁ : Ext4FileSystem := { fs with freeBlocksCount := fs.freeBlocksCount - UInt64.ofNat n }
      with hfs₁
    have hs₁ : fs₁.Sound := ⟨hs.1, hs.2, hs.3, hs.4, hs.5, hs.6⟩
    have hnot₁ : ∀ x ∈ List.range' (start + fs.blocksPerGroup * i) n, x ∉ fs₁.bitmaps :=
      fun x hx => hnot x (by
        simp only [globalRuns, runBlocks, List.map_cons, List.flatMap_cons]
        exact List.mem_append_left _ hx)
    obtain ⟨z1, z2, z3, z4, z5⟩ := zeroBlocks_eq hs₁ (start + fs.blocksPerGroup * i) n hnot₁
    have hper : (fs₁.zeroBlocks (start + fs.blocksPerGroup * i) n).blocksPerGroup =
        fs.blocksPerGroup := by
      rw [blocksPerGroup_zeroBlocks]
    unfold takeAllocated
    dsimp only
    rw [← hfs₁]
    split
    · refine ⟨[(start + fs.blocksPerGroup * i, n)], ?_, rfl, z1, z2, z3, ?_, ?_⟩
      · simp [globalRuns]
      · intro y hy
        exact z4 y (by simpa [runBlocks] using hy)
      · intro y hy
        exact z5 y (by simpa [runBlocks] using hy)
    · obtain ⟨taken, t1, t2, t3, t4, t5, t6, t7⟩ := ih z1
        (result ++ [(start + fs.blocksPerGroup * i, n)]) (remaining - n) (by
          rw [hper, z2]
          intro x hx
          exact hnot x (by
            simp only [globalRuns, runBlocks, List.map_cons, List.flatMap_cons]
            exact List.mem_append_right _ hx))
      rw [hper] at t1
      refine ⟨(start + fs.blocksPerGroup * i, n) :: taken, ?_, ?_, t3, t4.trans z2, ?_, ?_, ?_⟩
      · simpa [globalRuns] using t1
      · simpa using t2
      · exact fun y => (t5 y).trans (z3 y)
      · intro y hy
        simp only [runBlocks, List.flatMap_cons, List.mem_append, not_or] at hy
        rw [t6 y hy.2, z4 y hy.1]
        rfl
      · intro y hy
        by_cases hyt : y ∈ runBlocks taken
        · exact t7 y hyt
        · simp only [runBlocks, List.flatMap_cons, List.mem_append] at hy hyt
          rw [t6 y hyt, z5 y (hy.resolve_right hyt)]

/-- Changing a group's counter changes nothing else. -/
theorem Sound.fresh_of_counter (h : fs.Sound) (fs' : Ext4FileSystem) {i : ℕ} {g g' : GroupDesc}
    (hg : fs.blockGroups[i]? = some g) (hbitmap : g'.blockBitmap = g.blockBitmap)
    (hsize : fs'.blockSize = fs.blockSize) (hper : fs'.blocksPerGroup = fs.blocksPerGroup)
    (hgroups : fs'.blockGroups = fs.blockGroups.set i g') (hdev : fs'.device = fs.device) :
    Fresh fs fs' [] := by
  have hbitmaps : fs'.bitmaps = fs.bitmaps := bitmaps_set hg hbitmap hgroups
  have hblock : ∀ x, fs'.block x = fs.block x := fun x => by
    rw [block, block, hdev, hsize]
  have hused : ∀ x, fs'.used x = fs.used x :=
    used_congr hbitmaps hper fun x _ => hblock x
  refine ⟨⟨hsize.trans h.blockSize, ?_, ?_, ?_, ?_, ?_⟩, hbitmaps, List.nodup_nil, by simp,
    fun x hx => by rw [hused, hx], by simp, fun x _ _ => hblock x, by simp⟩
  · rw [hper]
    exact h.blocksPerGroup_pos
  · rw [hper]
    exact h.blocksPerGroup_le
  · rw [hgroups, List.length_set]
    exact h.groups_le
  · rw [hbitmaps]
    exact h.bitmaps_nodup
  · intro x hx
    rw [hused]
    exact h.bitmaps_used x (hbitmaps ▸ hx)

theorem runBlocks_globalRuns (per i : ℕ) (runs : List (ℕ × ℕ)) :
    runBlocks (globalRuns per i runs) = (runBlocks runs).map (· + per * i) := by
  induction runs with
  | nil => rfl
  | cons run runs ih =>
    obtain ⟨start, n⟩ := run
    simp only [runBlocks, globalRuns, List.map_cons, List.flatMap_cons, List.map_append] at ih ⊢
    have hrun : List.range' (start + per * i) n = (List.range' start n).map (· + per * i) := by
      rw [Nat.add_comm, ← List.map_add_range']
      simp only [Nat.add_comm]
    rw [ih, hrun]

/-- A group's runs were taken from its bitmap: what that says of the blocks. -/
structure RunsTaken (fs fs₁ : Ext4FileSystem) (i : ℕ) (data : Buffer) (xs : List ℕ) : Prop where
  remapped : Remapped fs fs₁ i data
  sound : fs₁.Sound
  nodup : xs.Nodup
  group : ∀ x ∈ xs, x / fs.blocksPerGroup = i
  free : ∀ x ∈ xs, fs.used x = false
  set : ∀ x ∈ xs, testBit data (x % fs.blocksPerGroup) = true
  mono : ∀ x, x / fs.blocksPerGroup = i → fs.used x = true →
    testBit data (x % fs.blocksPerGroup) = true
  notBitmap : ∀ x ∈ xs, x ∉ fs₁.bitmaps

theorem Sound.runsTaken (h : fs.Sound) (fs₁ : Ext4FileSystem) {i : ℕ} {g g' : GroupDesc}
    {data : Buffer} {runs : List (ℕ × ℕ)} (hg : fs.blockGroups[i]? = some g)
    (hbitmap : g'.blockBitmap = g.blockBitmap) (hsize : fs.blockBitmapSize = 4096)
    (hbs : fs₁.blockSize = fs.blockSize) (hbpg : fs₁.blocksPerGroup = fs.blocksPerGroup)
    (hgroups : fs₁.blockGroups = fs.blockGroups.set i g')
    (hdev : fs₁.device = writeExt4Block fs.device g.blockBitmap data fs.blockSize)
    (htaken : Ext4Bitmap.Taken (fs.block g.blockBitmap) data (runBlocks runs)) :
    RunsTaken fs fs₁ i data (runBlocks (globalRuns fs.blocksPerGroup i runs)) := by
  have hper : fs.blocksPerGroup = 32768 := by
    have := h.blocksPerGroup_le
    unfold blockBitmapSize at hsize
    omega
  have hremap : Remapped fs fs₁ i data := h.remapped fs₁ hg hbitmap hbs hbpg hgroups hdev
  have hmem : ∀ x ∈ runBlocks (globalRuns fs.blocksPerGroup i runs),
      x / fs.blocksPerGroup = i ∧ x % fs.blocksPerGroup ∈ runBlocks runs := by
    intro x hx
    rw [runBlocks_globalRuns] at hx
    obtain ⟨m, hm, rfl⟩ := List.mem_map.mp hx
    have := htaken.lt m hm
    rw [hper]
    refine ⟨by omega, ?_⟩
    rw [show (m + 32768 * i) % 32768 = m by omega]
    exact hm
  have hfree : ∀ x ∈ runBlocks (globalRuns fs.blocksPerGroup i runs), fs.used x = false := by
    intro x hx
    obtain ⟨hdiv, hmod⟩ := hmem x hx
    rw [used_eq_testBit hg hdiv]
    exact htaken.clear _ hmod
  have hmono : ∀ x, x / fs.blocksPerGroup = i → fs.used x = true →
      testBit data (x % fs.blocksPerGroup) = true := by
    intro x hx hused
    rw [used_eq_testBit hg hx] at hused
    exact htaken.mono _ hused
  have hs₁ : Fresh fs fs₁ [] := hremap.fresh h List.nodup_nil (by simp) (by simp) (by simp)
    hmono fun hs _ => ⟨hs, rfl, fun _ => rfl, fun _ _ => rfl, by simp⟩
  refine ⟨hremap, hs₁.sound, ?_, fun x hx => (hmem x hx).1, hfree,
    fun x hx => htaken.set _ (hmem x hx).2, hmono, fun x hx hb => ?_⟩
  · rw [runBlocks_globalRuns]
    exact htaken.nodup.map fun a b hab => Nat.add_right_cancel hab
  · have := hfree x hx
    rw [h.bitmaps_used x (hs₁.bitmaps ▸ hb)] at this
    cases this

/-- One round of `alloc_block` adds fresh runs to the result. -/
theorem allocBlockRound_fresh (h : fs.Sound) (result : List (ℕ × ℕ)) (remaining i : ℕ) :
    ∃ taken, (allocBlockRound (result, remaining, fs) i).1 = result ++ taken ∧
      (∀ run ∈ taken, RunFits run) ∧ Fresh fs (allocBlockRound (result, remaining, fs) i).2.2 (runBlocks taken) := by
  unfold allocBlockRound
  dsimp only
  split
  · exact ⟨[], by simp, by simp, h.fresh_nil⟩
  · split
    · exact ⟨[], by simp, by simp, h.fresh_nil⟩
    · rename_i g hg
      rcases hgroup : g.allocBlock fs.device fs.blockSize fs.blockBitmapSize remaining with
        ⟨runs, g', dev'⟩
      dsimp only
      have hgroup' := hgroup
      rw [h.blockSize] at hgroup'
      obtain ⟨hbitmap, hfits, ⟨rfl, rfl⟩ | ⟨hsize, data, hdev, htaken⟩⟩ :=
        GroupDesc.allocBlock_taken h.bitmapSize_le hgroup'
      · refine ⟨[], by simp, by simp, ?_⟩
        exact h.fresh_of_counter _ hg hbitmap rfl rfl rfl rfl
      · rw [← h.blockSize] at hdev htaken
        set fs₁ : Ext4FileSystem :=
          { fs with blockGroups := fs.blockGroups.set i g', device := dev' }
        have hruns := h.runsTaken fs₁ hg hbitmap hsize rfl rfl rfl hdev htaken
        have hround : (if runs = [] then (result, remaining, fs₁)
            else takeAllocated i runs result remaining fs₁) =
            takeAllocated i runs result remaining fs₁ := by
          split
          · rename_i hnil
            rw [hnil]
            rfl
          · rfl
        rw [hround]
        obtain ⟨taken, ⟨rest, hrest⟩, t2, t3, t4, t5, t6, t7⟩ :=
          takeAllocated_spec hruns.sound i runs result remaining hruns.notBitmap
        have hrest' : taken ++ rest = globalRuns fs.blocksPerGroup i runs := hrest
        have hsub : ∀ x ∈ runBlocks taken, x ∈ runBlocks (globalRuns fs.blocksPerGroup i runs) := by
          intro x hx
          rw [← hrest', runBlocks, List.flatMap_append]
          exact List.mem_append_left _ hx
        have hfits' : ∀ run ∈ taken, RunFits run := by
          intro run hrun
          have hmem : run ∈ globalRuns fs.blocksPerGroup i runs :=
            hrest ▸ List.mem_append_left _ hrun
          obtain ⟨⟨start, n⟩, hrun', rfl⟩ := List.mem_map.mp hmem
          exact hfits (start, n) hrun'
        refine ⟨taken, t2, hfits', hruns.remapped.fresh h ?_ (fun x hx => hruns.group x (hsub x hx))
          (fun x hx => hruns.free x (hsub x hx)) (fun x hx => hruns.set x (hsub x hx))
          hruns.mono fun _ _ => ⟨t3, t4, t5, t6, t7⟩⟩
        have hnodup := hruns.nodup
        rw [← hrest', runBlocks, List.flatMap_append] at hnodup
        exact (List.nodup_append'.mp hnodup).1

/-- **`alloc_block`** hands out runs of blocks that were free, zeroed. -/
theorem Sound.allocBlock (h : fs.Sound) {count : ℕ} {runs : List (ℕ × ℕ)}
    (ha : fs.allocBlock count = (runs, fs')) :
    (∀ run ∈ runs, RunFits run) ∧ Fresh fs fs' (runBlocks runs) := by
  have hfold : ∀ (is : List ℕ) (st : List (ℕ × ℕ) × ℕ × Ext4FileSystem),
      (∀ run ∈ st.1, RunFits run) ∧ Fresh fs st.2.2 (runBlocks st.1) →
      (∀ run ∈ (is.foldl allocBlockRound st).1, RunFits run) ∧
      Fresh fs (is.foldl allocBlockRound st).2.2 (runBlocks (is.foldl allocBlockRound st).1) := by
    intro is
    induction is with
    | nil => exact fun _ hst => hst
    | cons i is ih =>
      rintro ⟨result, remaining, fs₁⟩ ⟨hfits, hfresh⟩
      obtain ⟨taken, hres, htaken, hround⟩ := allocBlockRound_fresh hfresh.sound result remaining i
      apply ih
      rw [hres, runBlocks, List.flatMap_append]
      refine ⟨fun run hrun => ?_, hfresh.trans h hround⟩
      rcases List.mem_append.mp hrun with hrun | hrun
      · exact hfits run hrun
      · exact htaken run hrun
  have := hfold (List.range fs.blockGroups.length) ([], count, fs) ⟨by simp, h.fresh_nil⟩
  unfold Ext4FileSystem.allocBlock at ha
  cases ha
  exact this

/-! ### Giving blocks back -/

/-- The blocks `xs` may have been freed; nothing else changed. -/
structure Released (fs fs' : Ext4FileSystem) (xs : List ℕ) : Prop where
  sound : fs'.Sound
  bitmaps : fs'.bitmaps = fs.bitmaps
  used : ∀ x, x ∉ xs → fs'.used x = fs.used x
  block : ∀ x, x ∉ fs.bitmaps → fs'.block x = fs.block x

theorem Released.refl (hs : fs.Sound) (xs : List ℕ) : Released fs fs xs :=
  ⟨hs, rfl, fun _ _ => rfl, fun _ _ => rfl⟩

theorem Released.trans {xs ys : List ℕ} (h : Released fs fs' xs) (h' : Released fs' fs'' ys)
    (hsub : ∀ y ∈ ys, y ∈ xs) : Released fs fs'' xs where
  sound := h'.sound
  bitmaps := h'.bitmaps.trans h.bitmaps
  used := fun x hx => by rw [h'.used x fun hy => hx (hsub x hy), h.used x hx]
  block := fun x hb => by rw [h'.block x (h.bitmaps ▸ hb), h.block x hb]

/-- **`dealloc_block`** frees blocks of the run it is given and no other. -/
theorem Sound.deallocBlock (h : fs.Sound) {start count : ℕ}
    (hnot : ∀ x ∈ List.range' start count, x ∉ fs.bitmaps)
    (hd : fs.deallocBlock start count = some fs') :
    Released fs fs' (List.range' start count) := by
  unfold Ext4FileSystem.deallocBlock at hd
  dsimp only at hd
  split at hd
  · cases hd
  · rename_i g hg
    have hlt : start % fs.blocksPerGroup < fs.blockSize * 8 := by
      have := Nat.mod_lt start h.blocksPerGroup_pos
      have := h.blocksPerGroup_le
      rw [h.blockSize]
      omega
    rcases hgroup : g.deallocBlock fs.device (start % fs.blocksPerGroup) count fs.blockSize
      fs.blockBitmapSize with ⟨g', dev'⟩
    rw [hgroup] at hd
    obtain ⟨hbitmap, hdev⟩ := GroupDesc.deallocBlock_eq hlt hgroup
    set i := start / fs.blocksPerGroup with hi
    set fs₁ : Ext4FileSystem := { fs with
      blockGroups := fs.blockGroups.set i g'
      freeBlocksCount := fs.freeBlocksCount + UInt64.ofNat count
      device := dev' }
    have hfs : fs' = fs₁ := (Option.some.inj hd).symm
    subst hfs
    have hremap := h.remapped fs₁ hg hbitmap rfl rfl rfl hdev
    have hused : ∀ x, x ∉ List.range' start count → fs₁.used x = fs.used x := by
      intro x hx
      rw [hremap.used]
      split
      · rename_i hxi
        rw [used_eq_testBit hg hxi, Ext4Bitmap.testBit_deallocContiguous]
        · rfl
        · rw [List.mem_range'_1] at hx
          have h1 := Nat.div_add_mod x fs.blocksPerGroup
          have h2 := Nat.div_add_mod start fs.blocksPerGroup
          rw [hxi] at h1
          rw [← hi] at h2
          omega
      · rfl
    refine ⟨⟨h.blockSize, h.blocksPerGroup_pos, h.blocksPerGroup_le, ?_, ?_, ?_⟩,
      hremap.bitmaps, hused, hremap.block⟩
    · rw [← length_bitmaps, hremap.bitmaps, length_bitmaps]
      exact h.groups_le
    · rw [hremap.bitmaps]
      exact h.bitmaps_nodup
    · intro x hx
      rw [hremap.bitmaps] at hx
      rw [hused x fun hmem => hnot x hmem hx]
      exact h.bitmaps_used x hx

end Ext4FileSystem

end QuackOS.Ext4
