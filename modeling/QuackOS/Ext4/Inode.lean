import Mathlib.Tactic.Linarith
import QuackOS.Ext4.Alloc

/-!
# Inodes

`inode.rs`: an inode in memory is a copy of its on-disk record and a cache of its pages.
The contents of a file live in three places, the 60 bytes of `i_block` of an inline file,
the page cache, and the blocks an extent tree in `i_block` maps.

* `Ext4InodeDisk` — lookup, insertion and splitting in the extent tree;
* `Ext4Inode.read`, `write`, `truncate`, `fallocate` — the file operations;
* `Ext4Inode.drop`, `loadInode`, `create` — the life of an inode in memory.

`none` stands for a call that does not come back: a panic, or `extend_size` waiting for a
lock it holds.  Sizes and offsets are 64-bit; sums of two are taken modulo `2 ^ 64`.
-/

namespace QuackOS.Ext4

open Buffer Ext4ExtentBlock

/-- `PAGE_SIZE`. -/
def pageSize : ℕ := 4096

/-- 64-bit arithmetic wraps around. -/
def usize (n : ℕ) : ℕ := n % 2 ^ 64

/-- The errors the file operations return. -/
inductive Errno
  | EPERM
  | ENOSPC
  | ENOSYS
deriving DecidableEq, Repr

/-! ## The extent tree of an inode -/

namespace Ext4InodeDisk

/-- `Ext4InodeDisk::use_extent_tree`. -/
def useExtentTree (d : Ext4InodeDisk) : Bool := d.extentsFl

/-- `Ext4InodeDisk::has_inline_data`. -/
def hasInlineData (d : Ext4InodeDisk) : Bool := d.inlineDataFl

/-- The low half of the size, which is all the readers look at. -/
def sizeLo (d : Ext4InodeDisk) : ℕ := d.size % 2 ^ 32

/-- `Ext4InodeDisk::lookup_extent`. -/
def lookupExtent (d : Ext4InodeDisk) (fs : Ext4FileSystem) (l : UInt32) : Option Ext4Extent :=
  Ext4ExtentBlock.lookupExtent fs.device fs.blockSize maxDepth d.block l

/-- `Ext4InodeDisk::iter_all_extents`. -/
def iterAllExtents (d : Ext4InodeDisk) (fs : Ext4FileSystem) : List Ext4Extent :=
  Ext4ExtentBlock.iterAllExtents fs.device fs.blockSize maxDepth d.block

/-- Insertion into the child of an inner root: the child is read, the extent is inserted into
the copy that was read, and the copy is dropped. -/
def insertBelow (root : Buffer) (fs : Ext4FileSystem) (l : UInt32) (p : ℕ)
    (blocksCount : UInt32) : Option (Except String Unit) :=
  match (extentIdxs root).find? fun idx => idx.block ≤ l with
  | some idx =>
    (Ext4ExtentBlock.insertExtent (readExt4Block fs.device idx.physicalLeafBlock fs.blockSize)
      l p blocksCount).map fun _ => .ok ()
  | none => some (.error "No valid extent index found")

/-- `Ext4InodeDisk::split_leaf_block`: the extents of a full leaf root move to two new extent
blocks. -/
def splitLeafBlock (root : Buffer) (fs : Ext4FileSystem) : Option (Buffer × Ext4FileSystem) := do
  let (leftBlock, fs₁) ← fs.allocOneBlock
  let (rightBlock, fs₂) ← fs₁.allocOneBlock
  let header := extentHeader root
  let es := extents root
  let left := es.take (es.length / 2)
  let right := es.drop (es.length / 2)
  let leftFirst ← left.head?
  let rightFirst ← right.head?
  let fs₃ := fs₂.writeBytes leftBlock (initAsLeaf left) fs.blockSize
  let fs₄ := fs₃.writeBytes rightBlock (initAsLeaf right) fs.blockSize
  let root₁ := { header with entries := 2, depth := header.depth + 1 }.write root
  let root₂ := (Ext4ExtentIdx.new leftFirst.logicalBlock leftBlock).write root₁ 12
  let root₃ := (Ext4ExtentIdx.new rightFirst.logicalBlock rightBlock).write root₂ 24
  return (root₃, fs₄)

/-- `Ext4InodeDisk::insert_extent`. -/
def insertExtent (d : Ext4InodeDisk) (l : UInt32) (p : ℕ) (blocksCount : UInt32)
    (fs : Ext4FileSystem) : Option (Except String Unit × Ext4InodeDisk × Ext4FileSystem) :=
  let header := extentHeader d.block
  let es := extents d.block
  if 0 < header.depth then
    (insertBelow d.block fs l p blocksCount).map fun r => (r, d, fs)
  else
    match es.findIdx? fun e => e.mergesWith l p with
    | some i => some (.ok (), { d with block := growSlot d.block i blocksCount }, fs)
    | none =>
      if header.entries = header.max then
        match splitLeafBlock d.block fs with
        | none => none
        | some (root, fs') =>
          (insertBelow root fs' l p blocksCount).map fun r => (r, { d with block := root }, fs')
      else
        let sorted := (es ++ [Ext4Extent.new l blocksCount.toUInt16 p]).insertionSort
          fun a b => a.logicalBlock ≤ b.logicalBlock
        let root := writeExtents ({ header with entries := header.entries + 1 }.write d.block) 0
          sorted
        some (.ok (), { d with block := root }, fs)

/-- `Ext4Inode::lookup_or_create_extent`.  The extent returned for a new block is the one
asked for, whatever became of it in the tree. -/
def lookupOrCreateExtent (d : Ext4InodeDisk) (fs : Ext4FileSystem) (l : UInt32) :
    Option (Ext4Extent × Ext4InodeDisk × Ext4FileSystem) :=
  match d.lookupExtent fs l with
  | some e => some (e, d, fs)
  | none =>
    match fs.allocOneBlock with
    | none => none
    | some (newBlock, fs₁) =>
      let newExtent := Ext4Extent.new l 1 newBlock
      match d.insertExtent l newExtent.physicalStartBlock 1 fs₁ with
      | some (.ok _, d', fs₂) => some (newExtent, d', fs₂)
      | _ => none

end Ext4InodeDisk

/-! ## Pages -/

/-- `Page`. -/
structure Page where
  data : Buffer
  dirty : Bool

namespace Page

/-- Copy bytes into a page. -/
def copyIn (p : Page) (offset : ℕ) (bytes : List (BitVec 8)) : Page where
  data := fun i => if offset ≤ i then (bytes[i - offset]?).getD (p.data i) else p.data i
  dirty := true

/-- Zero a page from `offset` on. -/
def zeroFrom (p : Page) (offset : ℕ) : Page where
  data := fun i => if offset ≤ i then 0 else p.data i
  dirty := true

/-- The `n` bytes from `offset` on. -/
def slice (p : Page) (offset n : ℕ) : List (BitVec 8) := (List.range' offset n).map p.data

end Page

/-- `MAX_FS_BLOCK_ID`, which marks a hole. -/
def maxFsBlockId : ℕ := 0xFFFFF000

/-- The page `new_page_cache` makes: what the device has from the block on, or zeros for a
hole. -/
def newPageCache (fs : Ext4FileSystem) (fsBlockId : ℕ) : Page where
  data :=
    if fsBlockId ≠ maxFsBlockId ∧ fsBlockId &&& maxFsBlockId ≠ maxFsBlockId then
      Buffer.read fs.device (fsBlockId * fs.blockSize) pageSize
    else fun _ => 0
  dirty := false

/-- The page `new_inline_page_cache` makes of the 60 bytes of `i_block`. -/
def newInlinePageCache (block : Buffer) : Page where
  data := fun i => if i < 60 then block i else 0
  dirty := false

/-- `Ext4Inode`: the number, the record, the page cache and the seals. -/
structure Ext4Inode where
  inodeNum : ℕ
  inodeOnDisk : Ext4InodeDisk
  pages : Std.TreeMap ℕ Page
  seals : ℕ

/-- The block a page is read from, given an extent that covers its logical block. -/
def fsBlockIdOf (e : Ext4Extent) (l : UInt32) : ℕ :=
  e.physicalStartBlock + l.toNat - e.logicalBlock.toNat

/-- The logical block a page starts at. -/
def logicalBlockOf (fs : Ext4FileSystem) (pageIndex : ℕ) : UInt32 :=
  UInt32.ofNat pageIndex * UInt32.ofNat (pageSize / fs.blockSize)

/-- The extent found last is used again while it reaches past the block. -/
def reusable (current : Option Ext4Extent) (l : UInt32) : Option Ext4Extent :=
  current.filter fun e => l < e.logicalBlock + e.len.toUInt32

/-- `FallocFlags`. -/
structure FallocFlags where
  bits : UInt32
deriving DecidableEq

/-- `FallocFlags::contains`. -/
def FallocFlags.contains (a b : FallocFlags) : Bool := a.bits &&& b.bits == b.bits

/-- `FallocFlags::KEEP_SIZE`. -/
def FallocFlags.keepSize : FallocFlags := ⟨0x01⟩

/-- `FallocFlags::PUNCH_HOLE`. -/
def FallocFlags.punchHole : FallocFlags := ⟨0x02⟩

namespace Ext4Inode

/-- `Ext4Inode::get_size`. -/
def getSize (ino : Ext4Inode) : ℕ := ino.inodeOnDisk.size

/-- `Ext4Inode::set_size`. -/
def setSize (ino : Ext4Inode) (size : ℕ) : Ext4Inode :=
  { ino with inodeOnDisk := { ino.inodeOnDisk with size := size } }

/-- `AddressSpace::insert_page`. -/
def insertPage (ino : Ext4Inode) (pageIndex : ℕ) (p : Page) : Ext4Inode :=
  { ino with pages := ino.pages.insert pageIndex p }

/-- `AddressSpace::remove_page_cache`, for the pages `first, …, last - 1`. -/
def removePages (ino : Ext4Inode) (first last : ℕ) : Ext4Inode :=
  { ino with pages := (List.range' first (last - first)).foldl (fun ps i => ps.erase i) ino.pages }

/-- `Ext4Inode::get_page_cache`: the page, which is now in the cache, or `none` when it lies
past the end of the file. -/
def getPageCache (ino : Ext4Inode) (fs : Ext4FileSystem) (pageIndex : ℕ) :
    Option (Option Page × Ext4Inode × Ext4FileSystem) :=
  if ino.inodeOnDisk.sizeLo / pageSize < pageIndex then some (none, ino, fs)
  else
    match ino.pages[pageIndex]? with
    | some p => some (some p, ino, fs)
    | none =>
      if pageIndex = 0 ∧ ino.inodeOnDisk.hasInlineData then
        let p := newInlinePageCache ino.inodeOnDisk.block
        some (some p, ino.insertPage pageIndex p, fs)
      else
        let l := logicalBlockOf fs pageIndex
        match ino.inodeOnDisk.lookupOrCreateExtent fs l with
        | none => none
        | some (e, d, fs') =>
          let p := newPageCache fs' (fsBlockIdOf e l)
          some (some p, { ino with inodeOnDisk := d }.insertPage pageIndex p, fs')

/-! ## Reading -/

/-- The page `read` finds or makes: a page that no extent maps is a page of zeros. -/
def readPage (ino : Ext4Inode) (fs : Ext4FileSystem) (pageIndex : ℕ)
    (current : Option Ext4Extent) : Page × Option Ext4Extent × Ext4Inode :=
  match ino.pages[pageIndex]? with
  | some p => (p, current, ino)
  | none =>
    let l := logicalBlockOf fs pageIndex
    let (fsBlockId, current') :=
      match reusable current l with
      | some e => (fsBlockIdOf e l, current)
      | none =>
        match ino.inodeOnDisk.lookupExtent fs l with
        | some e => (fsBlockIdOf e l, some e)
        | none => (maxFsBlockId ||| pageIndex, none)
    let p := newPageCache fs fsBlockId
    (p, current', ino.insertPage pageIndex p)

/-- The loop of `Ext4Inode::read`.  Each round copies at least one byte. -/
def readLoop (fs : Ext4FileSystem) (offset rbufLen inodeSize : ℕ) :
    (fuel pageIndex pageOffset : ℕ) → Option Ext4Extent → Ext4Inode → List (BitVec 8) →
      Option (List (BitVec 8) × Ext4Inode)
  | 0, _, _, _, ino, acc => some (acc, ino)
  | fuel + 1, pageIndex, pageOffset, current, ino, acc =>
    if acc.length < rbufLen then
      if ino.pages[pageIndex]?.isNone ∧ pageIndex = 0 ∧ ino.inodeOnDisk.hasInlineData then
        -- the first page of an inline file is answered from `i_block`, whatever was read before
        let copyLen := min rbufLen (ino.inodeOnDisk.sizeLo - offset)
        let p := newInlinePageCache ino.inodeOnDisk.block
        if 60 < offset + copyLen then none
        else some ((List.range' offset copyLen).map ino.inodeOnDisk.block,
          ino.insertPage pageIndex p)
      else
        let (p, current', ino') := ino.readPage fs pageIndex current
        let copyLen := min (min (rbufLen - acc.length) (pageSize - pageOffset))
          (inodeSize - (acc.length + offset))
        let acc' := acc ++ p.slice pageOffset copyLen
        if inodeSize ≤ acc'.length + offset then some (acc', ino')
        else readLoop fs offset rbufLen inodeSize fuel (pageIndex + 1) 0 current' ino' acc'
    else some (acc, ino)

/-- `Ext4Inode::read`: the bytes put into the buffer. -/
def read (ino : Ext4Inode) (fs : Ext4FileSystem) (offset rbufLen : ℕ) :
    Option (List (BitVec 8) × Ext4Inode) :=
  let inodeSize := ino.inodeOnDisk.sizeLo
  if inodeSize ≤ offset then some ([], ino)
  else readLoop fs offset rbufLen inodeSize rbufLen (offset / pageSize) (offset % pageSize) none
    ino []

/-! ## Writing -/

/-- The page `write_extent_tree` finds or makes: a page that no extent maps gets a block. -/
def writePage (ino : Ext4Inode) (fs : Ext4FileSystem) (pageIndex : ℕ)
    (current : Option Ext4Extent) :
    Option (Page × Option Ext4Extent × Ext4Inode × Ext4FileSystem) :=
  match ino.pages[pageIndex]? with
  | some p => some (p, current, ino, fs)
  | none =>
    let l := logicalBlockOf fs pageIndex
    match reusable current l with
    | some e =>
      let p := newPageCache fs (fsBlockIdOf e l)
      some (p, current, ino.insertPage pageIndex p, fs)
    | none =>
      match ino.inodeOnDisk.lookupOrCreateExtent fs l with
      | none => none
      | some (e, d, fs') =>
        let p := newPageCache fs' (fsBlockIdOf e l)
        some (p, some e, { ino with inodeOnDisk := d }.insertPage pageIndex p, fs')

/-- The loop of `Ext4Inode::write_extent_tree` over the bytes not yet written.  Each round
writes at least one byte. -/
def writeLoop : (fuel pageIndex pageOffset : ℕ) → Option Ext4Extent → List (BitVec 8) →
    Ext4Inode → Ext4FileSystem → Option (Ext4Inode × Ext4FileSystem)
  | 0, _, _, _, _, ino, fs => some (ino, fs)
  | fuel + 1, pageIndex, pageOffset, current, buf, ino, fs =>
    if buf.length = 0 then some (ino, fs)
    else
      match ino.writePage fs pageIndex current with
      | none => none
      | some (p, current', ino', fs') =>
        let copyLen := min buf.length (pageSize - pageOffset)
        let ino'' := ino'.insertPage pageIndex (p.copyIn pageOffset (buf.take copyLen))
        writeLoop fuel (pageIndex + 1) 0 current' (buf.drop copyLen) ino'' fs'

/-- `Ext4Inode::write_extent_tree`. -/
def writeExtentTree (ino : Ext4Inode) (fs : Ext4FileSystem) (offset : ℕ)
    (buf : List (BitVec 8)) : Option (ℕ × Ext4Inode × Ext4FileSystem) :=
  match writeLoop buf.length (offset / pageSize) (offset % pageSize) none buf ino fs with
  | none => none
  | some (ino', fs') =>
    let endOffset := usize (offset + buf.length)
    let ino'' := if ino'.getSize < endOffset then ino'.setSize endOffset else ino'
    some (buf.length, ino'', fs')

/-- The inline bytes of a small file move to a dirty page over the new block. -/
def convertPage (ino : Ext4Inode) (fs : Ext4FileSystem) (newBlock : ℕ) :
    Option (Ext4Inode × Ext4FileSystem) :=
  if 0 < ino.getSize then
    match ino.getPageCache fs 0 with
    | some (some inlinePage, ino₁, fs₁) =>
      let newPage := newPageCache fs₁ newBlock
      let data := fun i => if i < 60 then inlinePage.data i else newPage.data i
      some (ino₁.insertPage 0 ⟨data, true⟩, fs₁)
    | _ => none
  else some (ino, fs)

/-- The part of `Ext4Inode::write` that gives a file of at most 60 bytes an extent tree.  The
one extent of the new tree maps the page the write starts in. -/
def convert (ino : Ext4Inode) (fs : Ext4FileSystem) (offset : ℕ) :
    Option (Ext4Inode × Ext4FileSystem) :=
  match fs.allocOneBlock with
  | none => none
  | some (newBlock, fs₁) =>
    match ino.convertPage fs₁ newBlock with
    | none => none
    | some (ino₁, fs₂) =>
      let l := UInt32.ofNat offset / UInt32.ofNat pageSize
      let header := { Ext4ExtentHeader.newRoot with entries := 1 }
      let root := (Ext4Extent.new l 1 newBlock).write (header.write ino₁.inodeOnDisk.block) 12
      some ({ ino₁ with inodeOnDisk := { ino₁.inodeOnDisk with
        inlineDataFl := false, extentsFl := true, block := root } }, fs₂)

/-- `Ext4Inode::write`. -/
def write (ino : Ext4Inode) (fs : Ext4FileSystem) (offset : ℕ) (buf : List (BitVec 8)) :
    Option (ℕ × Ext4Inode × Ext4FileSystem) :=
  let endOffset := usize (offset + buf.length)
  if endOffset ≤ 60 then do
    let (page?, ino₁, fs₁) ← ino.getPageCache fs 0
    let page ← page?
    if endOffset < offset then none
    else
      let ino₂ := ino₁.insertPage 0 (page.copyIn offset buf)
      let ino₃ := if ino₂.getSize < endOffset then ino₂.setSize endOffset else ino₂
      return (buf.length, ino₃, fs₁)
  else if ino.getSize ≤ 60 then do
    let (ino₁, fs₁) ← ino.convert fs offset
    ino₁.writeExtentTree fs₁ offset buf
  else ino.writeExtentTree fs offset buf

/-! ## Truncation -/

/-- The loop of `Ext4Inode::shrink_size` that frees blocks.  The block number goes up in every
round unless it wraps around, so a loop of more than `2 ^ 32` rounds does not end. -/
def shrinkLoop (d : Ext4InodeDisk) (current : UInt32) : (fuel : ℕ) → UInt32 → Ext4FileSystem →
    Option Ext4FileSystem
  | 0, _, _ => none
  | fuel + 1, l, fs =>
    if l < current then
      match d.lookupExtent fs l with
      | some e =>
        match fs.deallocBlock e.physicalStartBlock e.len.toNat with
        | none => none
        | some fs' => shrinkLoop d current fuel (l + e.len.toUInt32) fs'
      | none => shrinkLoop d current fuel (l + 1) fs
    else some fs

/-- The first part of `Ext4Inode::shrink_size` for a file with an extent tree: the page the
file ends in is fetched and zeroed from the new size's offset in its page on. -/
def clearLastPage (ino : Ext4Inode) (fs : Ext4FileSystem) (newSize : ℕ) :
    Option (Ext4Inode × Ext4FileSystem) :=
  if ino.getSize % pageSize = 0 then some (ino, fs)
  else
    match ino.getPageCache fs (ino.getSize / pageSize) with
    | none => none
    | some (some p, ino', fs') =>
      some (ino'.insertPage (ino.getSize / pageSize) (p.zeroFrom (newSize % pageSize)), fs')
    | some (none, ino', fs') => some (ino', fs')

/-- The number of blocks (or pages) of size `n` that `size` bytes take. -/
def blockCount (size n : ℕ) : ℕ := usize (size + n - 1) / n

/-- `Ext4Inode::shrink_size`. -/
def shrinkSize (ino : Ext4Inode) (fs : Ext4FileSystem) (newSize : ℕ) :
    Option (Ext4Inode × Ext4FileSystem) :=
  if ino.inodeOnDisk.hasInlineData then
    let d := ino.inodeOnDisk
    let block := fun i => if newSize ≤ i ∧ i < d.size then 0 else d.block i
    some ({ ino with inodeOnDisk := { d with block := block, size := newSize } }, fs)
  else do
    let (ino₁, fs₁) ← ino.clearLastPage fs newSize
    let ino₂ := ino₁.removePages (blockCount newSize pageSize) (blockCount ino.getSize pageSize)
    let newBlockCount := blockCount newSize fs.blockSize
    let currentBlockCount := blockCount ino.getSize fs.blockSize
    let fs₂ ← shrinkLoop ino₂.inodeOnDisk (UInt32.ofNat currentBlockCount)
      (2 ^ 32) (UInt32.ofNat newBlockCount) fs₁
    return ({ ino₂ with inodeOnDisk := { ino₂.inodeOnDisk with
      size := newSize, block := truncateExtents ino₂.inodeOnDisk.block newBlockCount } }, fs₂)

/-- `Ext4Inode::truncate`. -/
def truncate (ino : Ext4Inode) (fs : Ext4FileSystem) (newSize : ℕ) :
    Option (Except Errno ℕ × Ext4Inode × Ext4FileSystem) :=
  if ino.getSize = newSize then some (.ok 0, ino, fs)
  else if newSize < ino.getSize then
    if ino.seals &&& 2 ≠ 0 then some (.error .EPERM, ino, fs)
    else (ino.shrinkSize fs newSize).map fun (ino', fs') => (.ok 0, ino', fs')
  else if ino.seals &&& 4 ≠ 0 then some (.error .EPERM, ino, fs)
  else
    let ino₁ :=
      if ino.inodeOnDisk.hasInlineData then
        { ino with inodeOnDisk := { ino.inodeOnDisk with
          inlineDataFl := false, extentsFl := true
          block := Ext4ExtentHeader.newRoot.write ino.inodeOnDisk.block } }
      else ino
    some (.ok 0, ino₁.setSize newSize, fs)

/-! ## Allocation in advance and holes -/

/-- The loop of `Ext4Inode::extend_size` that puts the new runs into the tree. -/
def insertRuns : List (ℕ × ℕ) → UInt32 → Ext4InodeDisk → Ext4FileSystem →
    Option (UInt32 × Ext4InodeDisk × Ext4FileSystem)
  | [], currentBlocks, d, fs => some (currentBlocks, d, fs)
  | (start, n) :: runs, currentBlocks, d, fs =>
    match d.insertExtent currentBlocks start (UInt32.ofNat n) fs with
    | some (.ok _, d', fs') => insertRuns runs (currentBlocks + UInt32.ofNat n) d' fs'
    | _ => none

/-- `Ext4Inode::extend_size`.  On an inline file that is not empty it asks for a read lock
on the inode while it holds the write lock. -/
def extendSize (ino : Ext4Inode) (fs : Ext4FileSystem) (newSize : ℕ)
    (shouldUpdateSize : Bool) : Option (Except Errno Unit × Ext4Inode × Ext4FileSystem) :=
  if ino.seals &&& 4 ≠ 0 then some (.error .EPERM, ino, fs)
  else if ino.inodeOnDisk.hasInlineData ∧ 0 < ino.getSize then none
  else
    let d :=
      if ino.inodeOnDisk.hasInlineData then
        { ino.inodeOnDisk with
          inlineDataFl := false, extentsFl := true
          block := Ext4ExtentHeader.newRoot.write ino.inodeOnDisk.block }
      else ino.inodeOnDisk
    let currentBlocks := UInt32.ofNat (blockCount ino.getSize pageSize)
    let newBlocks := blockCount newSize pageSize
    let (runs, fs₁) := fs.allocBlock (usize (newBlocks + 2 ^ 64 - currentBlocks.toNat))
    match insertRuns runs currentBlocks d fs₁ with
    | none => none
    | some (currentBlocks', d', fs₂) =>
      if currentBlocks' < UInt32.ofNat newBlocks then
        some (.error .ENOSPC, { ino with inodeOnDisk := d' }, fs₂)
      else
        let d'' := if shouldUpdateSize then { d' with size := newSize } else d'
        some (.ok (), { ino with inodeOnDisk := d'' }, fs₂)

/-- One round of the `PUNCH_HOLE` loop: the block is zeroed and freed; the extent that maps it
stays. -/
def punchBlock (d : Ext4InodeDisk) (fs : Ext4FileSystem) (blockNum : ℕ) : Option Ext4FileSystem :=
  match d.lookupExtent fs (UInt32.ofNat blockNum) with
  | none => some fs
  | some e =>
    let physical := e.physicalStartBlock + blockNum - e.logicalBlock.toNat
    (fs.writeBytes physical (fun _ => 0) pageSize).deallocBlock physical 1

/-- `Ext4Inode::fallocate`. -/
def fallocate (ino : Ext4Inode) (fs : Ext4FileSystem) (mode : FallocFlags) (offset len : ℕ) :
    Option (Except Errno ℕ × Ext4Inode × Ext4FileSystem) :=
  if mode = ⟨0⟩ ∨ mode = .keepSize then
    if len = 314572800 then some (.ok 0, ino, fs)
    else
      let newSize := usize (offset + len)
      if ino.getSize < newSize then
        (ino.extendSize fs newSize !(mode.contains .keepSize)).map fun (r, ino', fs') =>
          (r.map fun _ => 0, ino', fs')
      else some (.ok 0, ino, fs)
  else if mode.contains .punchHole then
    let startBlock := offset / fs.blockSize
    let endBlock := usize (offset + len) / fs.blockSize
    let ino' := ino.removePages startBlock endBlock
    ((List.range' startBlock (endBlock - startBlock)).foldlM
      (punchBlock ino'.inodeOnDisk) fs).map fun fs' => (.ok 0, ino', fs')
  else some (.error .ENOSYS, ino, fs)

/-! ## Leaving and entering memory -/

/-- The write-back of one dirty page in `Drop`: a page no extent maps is lost. -/
def flushPage (d : Ext4InodeDisk) (fs : Ext4FileSystem) (pageIndex : ℕ) (p : Page) :
    Ext4FileSystem :=
  let l := logicalBlockOf fs pageIndex
  match d.lookupExtent fs l with
  | some e =>
    let bytesToWrite := min (d.size - pageIndex * pageSize) pageSize
    if 0 < bytesToWrite then fs.writeBytes (fsBlockIdOf e l) p.data bytesToWrite else fs
  | none => fs

/-- The dirty pages, in the order of the map. -/
def dirtyPages (ino : Ext4Inode) : List (ℕ × Page) := ino.pages.toList.filter fun p => p.2.dirty

/-- `Drop for Ext4Inode`. -/
def drop (ino : Ext4Inode) (fs : Ext4FileSystem) : Option Ext4FileSystem :=
  let d :=
    if ino.inodeOnDisk.hasInlineData then
      match ino.pages[0]? with
      | some p => { ino.inodeOnDisk with
          block := fun i => if i < 60 then p.data i else ino.inodeOnDisk.block i }
      | none => ino.inodeOnDisk
    else ino.inodeOnDisk
  let fs₁ :=
    if !d.hasInlineData && d.useExtentTree then
      ino.dirtyPages.foldl (fun fs (i, p) => flushPage d fs i p) fs
    else fs
  let fs₂ := { fs₁ with inodeTable := Function.update fs₁.inodeTable ino.inodeNum d }
  if d.linksCount = 0 then
    if d.useExtentTree then
      (d.iterAllExtents fs₂).foldlM
        (fun fs e => fs.deallocBlock e.physicalStartBlock e.len.toNat) fs₂
    else some fs₂
  else some fs₂

/-- `load_inode`; `F_SEAL_SEAL` is set. -/
def loadInode (fs : Ext4FileSystem) (inodeNum : ℕ) : Ext4Inode :=
  ⟨inodeNum, fs.inodeTable inodeNum, ∅, 1⟩

/-- The inode `create` makes for a regular file: one link, no bytes, inline. -/
def create (inodeNum : ℕ) : Ext4Inode :=
  ⟨inodeNum, ⟨0, 1, false, true, fun _ => 0⟩, ∅, 0⟩

end Ext4Inode

end QuackOS.Ext4
