import QuackOS.Ext4.Alloc

/-!
# Inode allocation

The other half of `block_group.rs` and `fs.rs`: every group has an inode bitmap beside its block
bitmap, with its own count of free inodes, and the superblock counts both kinds for the whole
file system.

* `Volume` — the file system with its inode bitmaps and counts;
* `allocInode`, `deallocInode` — take the first free inode, give one back;
* `Accounted` — the counts are those of the bitmaps.
-/

namespace QuackOS.Ext4

open Buffer Ext4ExtentBlock

namespace Ext4Bitmap

/-- `Ext4Bitmap::dealloc`. -/
def dealloc (bitmap : Buffer) (blockOffset bitmapSize : ℕ) : Buffer :=
  let byteIndex := blockOffset / 8
  if byteIndex < ext4BlockSize ∧ byteIndex < bitmapSize then
    Function.update bitmap byteIndex (bitmap byteIndex &&& ~~~(1#8 <<< (blockOffset % 8)))
  else bitmap

end Ext4Bitmap

/-- `GroupDesc`, with the fields that are about inodes. -/
structure InodeGroup where
  inodeBitmap : ℕ
  freeInodesCount : UInt32
  usedDirsCount : UInt32
  itableUnused : UInt32

namespace InodeGroup

/-- `GroupDesc::alloc_inode`; the number is the inode's place in the group. -/
def allocInode (g : InodeGroup) (dev : Buffer) (bs bitmapSize : ℕ) (isDir : Bool) :
    Option (ℕ × InodeGroup × Buffer) :=
  if 0 < g.freeInodesCount then
    (List.range ((bitmapSize + bs - 1) / bs)).findSome? fun i =>
      match Ext4Bitmap.alloc (readExt4Block dev (g.inodeBitmap + i) bs) bitmapSize with
      | (some n, data) =>
        some (n + i * bs * 8,
          { g with
            freeInodesCount := g.freeInodesCount - 1
            itableUnused := if 0 < g.itableUnused then g.itableUnused - 1 else g.itableUnused
            usedDirsCount := if isDir then g.usedDirsCount + 1 else g.usedDirsCount },
          writeExt4Block dev (g.inodeBitmap + i) data bs)
      | (none, _) => none
  else none

/-- `GroupDesc::dealloc_inode`, without the entry of the inode table. -/
def deallocInode (g : InodeGroup) (dev : Buffer) (localInodeNum : ℕ) (isDir : Bool)
    (bs bitmapSize : ℕ) : InodeGroup × Buffer :=
  let blockId := g.inodeBitmap + localInodeNum / (bs * 8)
  let data := Ext4Bitmap.dealloc (readExt4Block dev blockId bs) (localInodeNum % (bs * 8)) bitmapSize
  ({ g with
      freeInodesCount := g.freeInodesCount + 1
      itableUnused := g.itableUnused + 1
      usedDirsCount := if isDir then g.usedDirsCount - 1 else g.usedDirsCount },
    writeExt4Block dev blockId data bs)

end InodeGroup

/-- `Ext4FileSystem` with its inodes: the groups' inode halves and the superblock's
`free_inodes_count`. -/
structure Volume where
  fs : Ext4FileSystem
  inodesPerGroup : ℕ
  inodeGroups : List InodeGroup
  freeInodesCount : UInt32

namespace Volume

/-- The size in bytes of a group's inode bitmap. -/
def inodeBitmapSize (v : Volume) : ℕ := v.inodesPerGroup / 8

/-- `Ext4FileSystem::alloc_inode`; `none` is the panic when no group has a free inode. -/
def allocInode (v : Volume) (isDir : Bool) : Option (ℕ × Volume) :=
  (List.range v.inodeGroups.length).findSome? fun i =>
    match v.inodeGroups[i]? with
    | none => none
    | some g =>
      match g.allocInode v.fs.device v.fs.blockSize v.inodeBitmapSize isDir with
      | none => none
      | some (localInodeNum, g', dev) =>
        some (localInodeNum + v.inodesPerGroup * i + 1,
          { v with
            fs := { v.fs with device := dev }
            inodeGroups := v.inodeGroups.set i g'
            freeInodesCount := v.freeInodesCount - 1 })

/-- `Ext4FileSystem::dealloc_inode`; `none` is the panic on a number outside every group.  The
superblock's count is not touched. -/
def deallocInode (v : Volume) (globalInodeNum : ℕ) (isDir : Bool) : Option Volume :=
  if globalInodeNum = 0 ∨ v.inodesPerGroup = 0 then none
  else
    let groupId := (globalInodeNum - 1) / v.inodesPerGroup
    match v.inodeGroups[groupId]? with
    | none => none
    | some g =>
      let (g', dev) := g.deallocInode v.fs.device ((globalInodeNum - 1) % v.inodesPerGroup) isDir
        v.fs.blockSize v.inodeBitmapSize
      let entry := v.fs.inodeTable globalInodeNum
      some { v with
        fs := { v.fs with
          device := dev
          inodeTable := Function.update v.fs.inodeTable globalInodeNum
            { entry with size := 0, block := fun _ => 0 } }
        inodeGroups := v.inodeGroups.set groupId g' }

end Volume

/-- The allocation calls of the file system. -/
inductive VolumeCall where
  | allocInode (isDir : Bool)
  | allocOneBlock
  | allocBlock (blockCount : ℕ)
  | deallocBlock (blockNum blockCount : ℕ)
  | deallocInode (globalInodeNum : ℕ) (isDir : Bool)

/-- One call; `none` is a panic. -/
def VolumeCall.run (v : Volume) : VolumeCall → Option Volume
  | .allocInode isDir => (v.allocInode isDir).map Prod.snd
  | .allocOneBlock => v.fs.allocOneBlock.map fun (_, fs) => { v with fs := fs }
  | .allocBlock blockCount => some { v with fs := (v.fs.allocBlock blockCount).2 }
  | .deallocBlock blockNum blockCount =>
    (v.fs.deallocBlock blockNum blockCount).map fun fs => { v with fs := fs }
  | .deallocInode globalInodeNum isDir => v.deallocInode globalInodeNum isDir

def volumeStep (s : Option Volume) (c : VolumeCall) : Option Volume := s.bind c.run

namespace Volume

/-- The blocks the inode bitmaps are kept in. -/
def inodeBitmaps (v : Volume) : List ℕ := v.inodeGroups.map InodeGroup.inodeBitmap

/-- The images the driver works on: the bitmaps of both kinds are in blocks of their own, which
are marked used, and an inode bitmap fits in one block. -/
structure Formatted (v : Volume) : Prop where
  sound : v.fs.Sound
  inodesPerGroup_le : v.inodesPerGroup ≤ 32768
  groups_le : v.inodeGroups.length ≤ 64
  bitmaps_nodup : v.inodeBitmaps.Nodup
  bitmaps_apart : ∀ b ∈ v.inodeBitmaps, b ∉ v.fs.bitmaps
  bitmaps_used : ∀ b ∈ v.inodeBitmaps, v.fs.used b = true

/-- The counts of the groups are the numbers of clear bits in their bitmaps, and those of the
superblock are the sums over the groups. -/
structure Accounted (v : Volume) : Prop where
  groupBlocks : ∀ g ∈ v.fs.blockGroups,
    g.freeBlocksCount.toNat = clearCount (v.fs.block g.blockBitmap) v.fs.blocksPerGroup
  groupInodes : ∀ g ∈ v.inodeGroups,
    g.freeInodesCount.toNat = clearCount (v.fs.block g.inodeBitmap) v.inodesPerGroup
  blocks : v.fs.freeBlocksCount.toNat =
    (v.fs.blockGroups.map fun g => g.freeBlocksCount.toNat).sum
  inodes : v.freeInodesCount.toNat =
    (v.inodeGroups.map fun g => g.freeInodesCount.toNat).sum

end Volume

end QuackOS.Ext4
