import QuackOS.Ext4.InodeDisk
import QuackOS.Ext4.Dir

/-!
# The inode table

The three functions of `inode.rs` that move the records of inodes between memory and the
tables of the groups.

* `loadInode`, `writeInode`, `writeInodeOnDisk` — a record is laid over the bytes of its
  slot, with a checksum in two halves;
* `writeBack_spec` — what is written is what is loaded, its checksum is right, and every
  other slot keeps its bytes;
* `inodeTable_writeRecord` — to the file operations, which look at a few fields of each
  record, a write replaces one record of a table.
-/

namespace QuackOS.Ext4

namespace InodeTable

open Buffer

/-- The fields of `Ext4SuperBlock` the inode tables are found by. -/
structure Ext4SuperBlock where
  blockSize : ℕ
  inodesPerGroup : ℕ
  inodeSize : ℕ
  featureRoCompat : UInt32
  checksumSeed : UInt32

/-- `Ext4FileSystem` with what the inode tables need: the superblock and, for each group, the
first block of its table. -/
structure Tables where
  superBlock : Ext4SuperBlock
  blockGroups : List ℕ

namespace Tables

/-- The block and the offset in it where the three functions look for an inode; `none` is the
panic on a division by zero, on inode 0 and on a group that is not there. -/
def locate (fs : Tables) (inodeNum : ℕ) : Option (ℕ × ℕ) :=
  let sb := fs.superBlock
  if inodeNum = 0 ∨ sb.inodesPerGroup = 0 ∨ sb.blockSize = 0 then none
  else
    let bg := (inodeNum - 1) / sb.inodesPerGroup
    let index := (inodeNum - 1) % sb.inodesPerGroup
    fs.blockGroups[bg]?.map fun inodeTableBlockId =>
      (inodeTableBlockId + index * sb.inodeSize / sb.blockSize,
        index * sb.inodeSize % sb.blockSize)

/-- `load_inode`: the record of the inode it makes. -/
def loadInode (fs : Tables) (dev : Buffer) (inodeNum : ℕ) : Option Ext4InodeDisk :=
  (fs.locate inodeNum).map fun (fsBlockId, innerOffset) =>
    let data := Buffer.read dev (fsBlockId * fs.superBlock.blockSize) fs.superBlock.blockSize
    Ext4InodeDisk.readAt data innerOffset

end Tables

/-- Store two bytes in each of the places of the checksum of the record at `off`. -/
def putHalves (data : Buffer) (off lo hi : ℕ) : Buffer :=
  putLe (putLe data (off + 0x7C) 2 lo) (off + 0x82) 2 hi

/-- `compute_inode_checksum` on the `len` bytes from `off` on, with the bytes as it leaves
them. -/
def computeInodeChecksum (checksumSeed : UInt32) (inodeNum : ℕ) (generation : BitVec 32)
    (data : Buffer) (off len : ℕ) : UInt32 × Buffer :=
  let raw := putHalves data off 0 0
  let iCsumSeed := crc32c (crc32c checksumSeed (leList 4 inodeNum)) (leList 4 generation.toNat)
  (crc32c iCsumSeed ((List.range len).map fun i => raw (off + i)), raw)

namespace Tables

/-- What `write_inode` and `write_inode_on_disk` do once they have the record: lay it over its
slot in a copy of the block, put the checksum in if the file system has checksums, and write
the block back.  `none` is a panic. -/
def writeRecord (fs : Tables) (dev : Buffer) (d : Ext4InodeDisk) (inodeNum : ℕ) :
    Option Buffer := do
  let sb := fs.superBlock
  let (fsBlockId, innerOffset) ← fs.locate inodeNum
  let data := d.writeAt (Buffer.read dev (fsBlockId * sb.blockSize) sb.blockSize) innerOffset
  let data' ←
    if sb.featureRoCompat &&& 0x400 ≠ 0 then
      if sb.blockSize < innerOffset + sb.inodeSize then none
      else
        let (csum, raw) := computeInodeChecksum sb.checksumSeed inodeNum d.generation data
          innerOffset sb.inodeSize
        some (putHalves raw innerOffset csum.toNat (csum.toNat / 65536))
    else some data
  return Buffer.write dev (fsBlockId * sb.blockSize) data' sb.blockSize

/-- `write_inode`, for an inode whose record is `d`. -/
def writeInode (fs : Tables) (dev : Buffer) (d : Ext4InodeDisk) (inodeNum : ℕ) : Option Buffer :=
  fs.writeRecord dev d inodeNum

/-- `write_inode_on_disk`. -/
def writeInodeOnDisk (fs : Tables) (dev : Buffer) (d : Ext4InodeDisk) (inodeNum : ℕ) :
    Option Buffer :=
  fs.writeRecord dev d inodeNum

end Tables

/-! ## The checksum -/

section Checksum

variable (b : Buffer) (off lo hi : ℕ)

/-- Storing the halves again leaves nothing of the old ones. -/
theorem putHalves_putHalves (lo' hi' : ℕ) :
    putHalves (putHalves b off lo hi) off lo' hi' = putHalves b off lo' hi' := by
  funext k
  simp only [putHalves, putLe]
  split_ifs <;> rfl

theorem putHalves_outside {k : ℕ} (h : k < off ∨ off + Ext4InodeDisk.diskSize ≤ k) :
    putHalves b off lo hi k = b k := by
  unfold Ext4InodeDisk.diskSize at h
  rw [putHalves, putLe_outside (by omega), putLe_outside (by omega)]

/-- A field beside the two halves. -/
theorem getLe_putHalves {o n : ℕ} (h1 : o + n ≤ 0x7C ∨ 0x7E ≤ o) (h2 : o + n ≤ 0x82 ∨ 0x84 ≤ o) :
    getLe (putHalves b off lo hi) (off + o) n = getLe b (off + o) n := by
  rw [putHalves, getLe_putLe_of_disjoint _ _ (by omega), getLe_putLe_of_disjoint _ _ (by omega)]

theorem getLe_putHalves_lo : getLe (putHalves b off lo hi) (off + 124) 2 = lo % 65536 := by
  rw [putHalves, getLe_putLe_of_disjoint _ _ (by omega), getLe_putLe]
  norm_num

theorem getLe_putHalves_hi : getLe (putHalves b off lo hi) (off + 130) 2 = hi % 65536 := by
  rw [putHalves, getLe_putLe]
  norm_num

/-- The last word of `osd2`, half of which is checksum. -/
theorem getLe_osd2 (c : Buffer) :
    getLe c (off + 124) 4 = getLe c (off + 124) 2 + 65536 * getLe c (off + 126) 2 :=
  getLe_add c (off + 124) 2 2

/-- The halves are all of a record that storing them changes. -/
theorem sansChecksum_putHalves :
    (Ext4InodeDisk.readAt (putHalves b off lo hi) off).sansChecksum =
      (Ext4InodeDisk.readAt b off).sansChecksum := by
  have hmode : getLe (putHalves b off lo hi) off 2 = getLe b off 2 :=
    getLe_putHalves b off lo hi (o := 0) (by omega) (by omega)
  have hword : (BitVec.ofNat 32 (getLe (putHalves b off lo hi) (off + 124) 4)) >>> 16 =
      (BitVec.ofNat 32 (getLe b (off + 124) 4)) >>> 16 := by
    have hhigh := @getLe_putHalves b off lo hi 126 2 (by omega) (by omega)
    have h1 := getLe_lt (putHalves b off lo hi) (off + 124) 2
    have h2 := getLe_lt b (off + 124) 2
    have h3 := getLe_lt b (off + 126) 2
    apply BitVec.eq_of_toNat_eq
    rw [BitVec.toNat_ushiftRight, BitVec.toNat_ushiftRight, BitVec.toNat_ofNat,
      BitVec.toNat_ofNat, getLe_osd2, getLe_osd2, hhigh, Nat.shiftRight_eq_div_pow,
      Nat.shiftRight_eq_div_pow]
    omega
  simp only [Ext4InodeDisk.sansChecksum, Ext4InodeDisk.readAt, hmode, hword]
  simp (disch := omega) only [getLe_putHalves]

/-- The checksum read back is the one whose halves were stored. -/
theorem checksum_putHalves (csum : UInt32) :
    (Ext4InodeDisk.readAt (putHalves b off csum.toNat (csum.toNat / 65536)) off).checksum =
      csum.toBitVec := by
  have hlo := getLe_putHalves_lo b off csum.toNat (csum.toNat / 65536)
  have hhi := getLe_putHalves_hi b off csum.toNat (csum.toNat / 65536)
  have hlt := csum.toNat_lt
  apply BitVec.eq_of_toNat_eq
  rw [Ext4InodeDisk.checksum, BitVec.toNat_append, Ext4InodeDisk.readAt, BitVec.toNat_setWidth,
    BitVec.toNat_ofNat, BitVec.toNat_ofNat, getLe_osd2, hlo, hhi,
    ← Nat.shiftLeft_add_eq_or_of_lt (by omega), Nat.shiftLeft_eq, UInt32.toNat_toBitVec]
  omega

/-- The checksum looks at the bytes of the record beside its own two halves. -/
theorem computeInodeChecksum_congr {c : Buffer} {off' len : ℕ} (seed : UInt32) (inodeNum : ℕ)
    (generation : BitVec 32)
    (h : ∀ k < len, putHalves b off 0 0 (off + k) = putHalves c off' 0 0 (off' + k)) :
    (computeInodeChecksum seed inodeNum generation b off len).1 =
      (computeInodeChecksum seed inodeNum generation c off' len).1 := by
  simp only [computeInodeChecksum]
  congr 1
  exact List.map_congr_left fun k hk => h k (List.mem_range.mp hk)

end Checksum

/-! ## What is written back -/

namespace Tables

variable {fs : Tables} {dev : Buffer} {d : Ext4InodeDisk} {n : ℕ}

/-- The inodes of the file system. -/
def InRange (fs : Tables) (n : ℕ) : Prop :=
  1 ≤ n ∧ n ≤ fs.superBlock.inodesPerGroup * fs.blockGroups.length

/-- The number of bytes of a group's table. -/
def tableSize (fs : Tables) : ℕ := fs.superBlock.inodesPerGroup * fs.superBlock.inodeSize

/-- The address of the table of a group. -/
def tableAddr (fs : Tables) (bg : ℕ) : ℕ :=
  fs.blockGroups.getD bg 0 * fs.superBlock.blockSize

/-- The address of the slot of an inode. -/
def slotAddr (fs : Tables) (n : ℕ) : ℕ :=
  fs.tableAddr ((n - 1) / fs.superBlock.inodesPerGroup) +
    (n - 1) % fs.superBlock.inodesPerGroup * fs.superBlock.inodeSize

/-- The bytes of the slot of an inode. -/
def slot (fs : Tables) (dev : Buffer) (n : ℕ) : List (BitVec 8) :=
  (List.range fs.superBlock.inodeSize).map fun k => dev (fs.slotAddr n + k)

/-- A file system: a record fits in a slot, slots fill blocks, and the tables of two groups
have no byte in common. -/
structure Formatted (fs : Tables) : Prop where
  blockSize_pos : 0 < fs.superBlock.blockSize
  inodeSize_ge : Ext4InodeDisk.diskSize ≤ fs.superBlock.inodeSize
  inodeSize_dvd : fs.superBlock.inodeSize ∣ fs.superBlock.blockSize
  apart : ∀ i j, i < fs.blockGroups.length → j < fs.blockGroups.length → i ≠ j →
    fs.tableAddr i + fs.tableSize ≤ fs.tableAddr j ∨
      fs.tableAddr j + fs.tableSize ≤ fs.tableAddr i

/-- An inode of the file system is in one of its groups. -/
theorem InRange.group (h : fs.InRange n) :
    0 < fs.superBlock.inodesPerGroup ∧
      (n - 1) / fs.superBlock.inodesPerGroup < fs.blockGroups.length := by
  obtain ⟨h1, h2⟩ := h
  have hpos : 0 < fs.superBlock.inodesPerGroup := by
    rcases Nat.eq_zero_or_pos fs.superBlock.inodesPerGroup with h0 | h0
    · rw [h0] at h2
      omega
    · exact h0
  exact ⟨hpos, Nat.div_lt_of_lt_mul (by omega)⟩

/-- The three functions look for an inode at its slot, and the slot is within its block. -/
theorem locate_spec (hfs : fs.Formatted) (h : fs.InRange n) :
    ∃ blk inner, fs.locate n = some (blk, inner) ∧
      blk * fs.superBlock.blockSize + inner = fs.slotAddr n ∧
      inner + fs.superBlock.inodeSize ≤ fs.superBlock.blockSize := by
  obtain ⟨hpos, hbg⟩ := h.group
  have hbs := hfs.blockSize_pos
  have hguard : ¬ (n = 0 ∨ fs.superBlock.inodesPerGroup = 0 ∨ fs.superBlock.blockSize = 0) := by
    have := h.1
    omega
  unfold locate
  dsimp only
  rw [if_neg hguard, List.getElem?_eq_getElem hbg]
  refine ⟨_, _, rfl, ?_, ?_⟩
  · rw [slotAddr, tableAddr, List.getD_eq_getElem _ _ hbg, Nat.add_mul, Nat.add_assoc,
      Nat.div_add_mod']
  · obtain ⟨q, hq⟩ := hfs.inodeSize_dvd
    have hq0 : 0 < q := by
      rcases Nat.eq_zero_or_pos q with h0 | h0
      · rw [hq, h0, Nat.mul_zero] at hbs
        omega
      · exact h0
    rw [hq, Nat.mul_comm _ fs.superBlock.inodeSize, Nat.mul_mod_mul_left, ← Nat.mul_succ]
    exact Nat.mul_le_mul_left _ (Nat.mod_lt _ hq0)

/-- Loading an inode reads its slot. -/
theorem loadInode_eq (hfs : fs.Formatted) (h : fs.InRange n) :
    fs.loadInode dev n = some (Ext4InodeDisk.readAt dev (fs.slotAddr n)) := by
  obtain ⟨blk, inner, hloc, haddr, hin⟩ := locate_spec hfs h
  have hsize := hfs.inodeSize_ge
  rw [loadInode, hloc, Option.map_some, Option.some.injEq]
  refine Ext4InodeDisk.readAt_congr fun k hk => ?_
  rw [Buffer.read, if_pos (by omega), ← Nat.add_assoc, haddr]

/-- A slot is within the table of its group. -/
theorem slot_within (h : fs.InRange n) :
    fs.tableAddr ((n - 1) / fs.superBlock.inodesPerGroup) ≤ fs.slotAddr n ∧
      fs.slotAddr n + fs.superBlock.inodeSize ≤
        fs.tableAddr ((n - 1) / fs.superBlock.inodesPerGroup) + fs.tableSize := by
  obtain ⟨hpos, -⟩ := h.group
  have hindex := Nat.mod_lt (n - 1) hpos
  have hle := Nat.mul_le_mul_right fs.superBlock.inodeSize (Nat.succ_le_of_lt hindex)
  rw [Nat.succ_mul] at hle
  unfold slotAddr tableSize
  omega

/-- The slots of two inodes have no byte in common. -/
theorem slots_apart (hfs : fs.Formatted) {m : ℕ} (hn : fs.InRange n) (hm : fs.InRange m)
    (hne : m ≠ n) :
    fs.slotAddr m + fs.superBlock.inodeSize ≤ fs.slotAddr n ∨
      fs.slotAddr n + fs.superBlock.inodeSize ≤ fs.slotAddr m := by
  by_cases hgroup : (m - 1) / fs.superBlock.inodesPerGroup = (n - 1) / fs.superBlock.inodesPerGroup
  · -- two slots of one table, by their places in it
    have hplace : (m - 1) % fs.superBlock.inodesPerGroup ≠
        (n - 1) % fs.superBlock.inodesPerGroup := by
      intro heq
      have h1 := Nat.div_add_mod (m - 1) fs.superBlock.inodesPerGroup
      have h2 := Nat.div_add_mod (n - 1) fs.superBlock.inodesPerGroup
      rw [hgroup, heq] at h1
      have := hn.1
      have := hm.1
      omega
    unfold slotAddr
    rw [hgroup]
    rcases Nat.lt_or_gt_of_ne hplace with hlt | hlt
    · have hle := Nat.mul_le_mul_right fs.superBlock.inodeSize (Nat.succ_le_of_lt hlt)
      rw [Nat.succ_mul] at hle
      omega
    · have hle := Nat.mul_le_mul_right fs.superBlock.inodeSize (Nat.succ_le_of_lt hlt)
      rw [Nat.succ_mul] at hle
      omega
  · obtain ⟨h1, h2⟩ := slot_within hn
    obtain ⟨h3, h4⟩ := slot_within hm
    rcases hfs.apart _ _ hm.group.2 hn.group.2 hgroup with h | h
    · omega
    · omega

/-- Whether the file system keeps checksums of its metadata. -/
def MetadataCsum (fs : Tables) : Prop := fs.superBlock.featureRoCompat &&& 0x400 ≠ 0

instance (fs : Tables) : Decidable fs.MetadataCsum :=
  inferInstanceAs (Decidable (fs.superBlock.featureRoCompat &&& 0x400 ≠ 0))

/-- The checksum put in with a record that is laid over `b` at `off`. -/
def csumOf (fs : Tables) (b : Buffer) (d : Ext4InodeDisk) (n off : ℕ) : UInt32 :=
  (computeInodeChecksum fs.superBlock.checksumSeed n d.generation (d.writeAt b off) off
    fs.superBlock.inodeSize).1

/-- The block as it is written back, from the block as it was read. -/
def blockWith (fs : Tables) (b : Buffer) (d : Ext4InodeDisk) (n off : ℕ) : Buffer :=
  if fs.MetadataCsum then
    putHalves (d.writeAt b off) off (fs.csumOf b d n off).toNat
      ((fs.csumOf b d n off).toNat / 65536)
  else d.writeAt b off

/-- The call writes one block back. -/
theorem writeRecord_eq {blk inner : ℕ} (hloc : fs.locate n = some (blk, inner))
    (hin : inner + fs.superBlock.inodeSize ≤ fs.superBlock.blockSize) :
    fs.writeRecord dev d n =
      some (Buffer.write dev (blk * fs.superBlock.blockSize)
        (fs.blockWith (Buffer.read dev (blk * fs.superBlock.blockSize) fs.superBlock.blockSize)
          d n inner) fs.superBlock.blockSize) := by
  unfold writeRecord
  simp only [hloc, Option.bind_eq_bind, Option.bind_some]
  by_cases hcsum : fs.MetadataCsum
  · have hflag : fs.superBlock.featureRoCompat &&& 0x400 ≠ 0 := hcsum
    rw [if_pos hflag, if_neg (by omega), blockWith, if_pos hcsum]
    simp only [computeInodeChecksum, putHalves_putHalves, csumOf]
    rfl
  · have hflag : ¬ fs.superBlock.featureRoCompat &&& 0x400 ≠ 0 := hcsum
    rw [if_neg hflag, blockWith, if_neg hcsum]
    rfl

section Block

variable (b : Buffer) (off : ℕ)

/-- The rest of the block is as it was. -/
theorem blockWith_outside {k : ℕ} (h : k < off ∨ off + Ext4InodeDisk.diskSize ≤ k) :
    fs.blockWith b d n off k = b k := by
  unfold blockWith
  split
  · rw [putHalves_outside _ _ _ _ h, Ext4InodeDisk.writeAt_outside _ _ h]
  · exact Ext4InodeDisk.writeAt_outside _ _ h

/-- The record in the block is the one written, apart from its checksum. -/
theorem sansChecksum_blockWith :
    (Ext4InodeDisk.readAt (fs.blockWith b d n off) off).sansChecksum = d.sansChecksum := by
  unfold blockWith
  split
  · rw [sansChecksum_putHalves, Ext4InodeDisk.readAt_writeAt]
  · rw [Ext4InodeDisk.readAt_writeAt]

theorem generation_blockWith :
    (Ext4InodeDisk.readAt (fs.blockWith b d n off) off).generation = d.generation := by
  rw [← Ext4InodeDisk.generation_sansChecksum, sansChecksum_blockWith,
    Ext4InodeDisk.generation_sansChecksum]

/-- The checksum is the same whatever is in its place. -/
theorem csumOf_putHalves (lo hi : ℕ) :
    (computeInodeChecksum fs.superBlock.checksumSeed n d.generation
      (putHalves (d.writeAt b off) off lo hi) off fs.superBlock.inodeSize).1 =
      fs.csumOf b d n off := by
  rw [csumOf]
  apply computeInodeChecksum_congr
  intro k _
  rw [putHalves_putHalves]

/-- The checksum in the block is that of the record in the block. -/
theorem checksum_blockWith (hcsum : fs.MetadataCsum) :
    (Ext4InodeDisk.readAt (fs.blockWith b d n off) off).checksum =
      (computeInodeChecksum fs.superBlock.checksumSeed n d.generation (fs.blockWith b d n off) off
        fs.superBlock.inodeSize).1.toBitVec := by
  unfold blockWith
  rw [if_pos hcsum, checksum_putHalves, csumOf_putHalves]

end Block

/-- What a write of `d` at `n` should do to the device. -/
structure WrittenBack (fs : Tables) (dev dev' : Buffer) (d : Ext4InodeDisk) (n : ℕ) : Prop where
  loaded : ∃ l, fs.loadInode dev' n = some l ∧ l.sansChecksum = d.sansChecksum ∧
    (fs.MetadataCsum → l.checksum = (computeInodeChecksum fs.superBlock.checksumSeed n
      l.generation dev' (fs.slotAddr n) fs.superBlock.inodeSize).1.toBitVec)
  others : ∀ m, fs.InRange m → m ≠ n → fs.slot dev' m = fs.slot dev m
  outside : ∀ a, a < fs.slotAddr n ∨ fs.slotAddr n + Ext4InodeDisk.diskSize ≤ a → dev' a = dev a

/-- Zeroing the checksum commutes with moving the record. -/
theorem putHalves_shift {b c : Buffer} {off off' len : ℕ} (lo hi : ℕ)
    (h : ∀ k < len, b (off + k) = c (off' + k)) :
    ∀ k < len, putHalves b off lo hi (off + k) = putHalves c off' lo hi (off' + k) := by
  intro k hk
  have h1 : off + k - (off + 0x7C) = off' + k - (off' + 0x7C) := by omega
  have h2 : off + k - (off + 0x82) = off' + k - (off' + 0x82) := by omega
  simp only [putHalves, putLe, h1, h2, h k hk, Nat.add_le_add_iff_left, Nat.add_assoc,
    Nat.add_lt_add_iff_left]

theorem writeRecord_spec (hfs : fs.Formatted) (h : fs.InRange n) :
    ∃ dev', fs.writeRecord dev d n = some dev' ∧ fs.WrittenBack dev dev' d n := by
  obtain ⟨blk, inner, hloc, haddr, hin⟩ := locate_spec hfs h
  have hsize := hfs.inodeSize_ge
  have heq := @writeRecord_eq fs dev d n blk inner hloc hin
  have hrest := @blockWith_outside fs d n
    (Buffer.read dev (blk * fs.superBlock.blockSize) fs.superBlock.blockSize) inner
  have hrecord := @sansChecksum_blockWith fs d n
    (Buffer.read dev (blk * fs.superBlock.blockSize) fs.superBlock.blockSize) inner
  have hgen := @generation_blockWith fs d n
    (Buffer.read dev (blk * fs.superBlock.blockSize) fs.superBlock.blockSize) inner
  have hsum := @checksum_blockWith fs d n
    (Buffer.read dev (blk * fs.superBlock.blockSize) fs.superBlock.blockSize) inner
  generalize fs.blockWith (Buffer.read dev (blk * fs.superBlock.blockSize)
    fs.superBlock.blockSize) d n inner = data at heq hrest hrecord hgen hsum
  refine ⟨_, heq, ?_⟩
  have hbyte : ∀ k < fs.superBlock.inodeSize,
      Buffer.write dev (blk * fs.superBlock.blockSize) data fs.superBlock.blockSize
        (fs.slotAddr n + k) = data (inner + k) := by
    intro k hk
    rw [← haddr, Buffer.write, if_pos ⟨by omega, by omega⟩]
    congr 1
    omega
  have houtside : ∀ a, a < fs.slotAddr n ∨ fs.slotAddr n + Ext4InodeDisk.diskSize ≤ a →
      Buffer.write dev (blk * fs.superBlock.blockSize) data fs.superBlock.blockSize a = dev a := by
    intro a ha
    rw [Buffer.write]
    split
    · rename_i hblk
      rw [hrest (by omega), Buffer.read, if_pos (by omega)]
      congr 1
      omega
    · rfl
  have hread : Ext4InodeDisk.readAt (Buffer.write dev (blk * fs.superBlock.blockSize) data
      fs.superBlock.blockSize) (fs.slotAddr n) = Ext4InodeDisk.readAt data inner :=
    Ext4InodeDisk.readAt_congr fun k hk => hbyte k (by omega)
  refine ⟨⟨_, loadInode_eq hfs h, ?_, fun hcsum => ?_⟩, fun m hm hne => ?_, houtside⟩
  · rw [hread, hrecord]
  · rw [hread, hsum hcsum, hgen]
    exact congrArg UInt32.toBitVec (computeInodeChecksum_congr _ _ _ _ _
      (putHalves_shift 0 0 fun k hk => (hbyte k hk).symm))
  · refine List.map_congr_left fun k hk => houtside _ ?_
    have hk' := List.mem_range.mp hk
    have := slots_apart hfs h hm hne
    omega

/-- **Write-back.**  Both writers go through on every inode of the file system, and what they
leave is what is loaded: the record apart from its checksum, with a checksum that is right,
and every other slot as it was. -/
theorem writeBack_spec (hfs : fs.Formatted) (h : fs.InRange n) (dev : Buffer)
    (d : Ext4InodeDisk) :
    (∃ dev', fs.writeInode dev d n = some dev' ∧ fs.WrittenBack dev dev' d n) ∧
      ∃ dev', fs.writeInodeOnDisk dev d n = some dev' ∧ fs.WrittenBack dev dev' d n :=
  ⟨writeRecord_spec hfs h, writeRecord_spec hfs h⟩

/-- A file system of two groups of 32 inodes with checksums. -/
def twoGroups : Tables where
  superBlock := ⟨4096, 32, 256, 0x400, 0⟩
  blockGroups := [5, 40]

theorem twoGroups_formatted : twoGroups.Formatted where
  blockSize_pos := by decide
  inodeSize_ge := by decide
  inodeSize_dvd := by decide
  apart := by
    intro i j hi hj hne
    have hi' : i < 2 := hi
    have hj' : j < 2 := hj
    have hcases : i = 0 ∧ j = 1 ∨ i = 1 ∧ j = 0 := by omega
    rcases hcases with ⟨rfl, rfl⟩ | ⟨rfl, rfl⟩
    · exact .inl (by decide)
    · exact .inr (by decide)

/-- Inode 34, the second of the second group. -/
theorem writeBack_second_group :
    twoGroups.Formatted ∧ twoGroups.InRange 34 ∧
    (∃ dev', twoGroups.writeInode (fun _ => 0) Ext4InodeDisk.default 34 = some dev' ∧
      twoGroups.WrittenBack (fun _ => 0) dev' Ext4InodeDisk.default 34) ∧
    ∃ dev', twoGroups.writeInodeOnDisk (fun _ => 0) Ext4InodeDisk.default 34 = some dev' ∧
      twoGroups.WrittenBack (fun _ => 0) dev' Ext4InodeDisk.default 34 := by
  have h : twoGroups.InRange 34 := by unfold InRange; decide
  exact ⟨twoGroups_formatted, h, writeBack_spec twoGroups_formatted h _ _⟩

end Tables

/-! ## The records the file operations work on -/

/-- A record with the fields the file operations look at. -/
def Ext4InodeDisk.view (d : Ext4InodeDisk) : Ext4.Ext4InodeDisk where
  size := d.sizeHi.toNat * 2 ^ 32 + d.sizeLo.toNat
  linksCount := UInt16.ofBitVec d.linksCount
  extentsFl := d.flags &&& 0x00080000#32 = 0x00080000#32
  inlineDataFl := d.flags &&& 0x10000000#32 = 0x10000000#32
  block := fun i => if i < 60 then d.block.extractLsb' (8 * i) 8 else 0

/-- The checksum is not among them. -/
theorem Ext4InodeDisk.view_sansChecksum (d : Ext4InodeDisk) : d.sansChecksum.view = d.view := by
  have hsize : d.sansChecksum.sizeHi = d.sizeHi ∧ d.sansChecksum.sizeLo = d.sizeLo := by
    rw [sansChecksum]
    exact ⟨rfl, rfl⟩
  have hrest : d.sansChecksum.linksCount = d.linksCount ∧ d.sansChecksum.flags = d.flags ∧
      d.sansChecksum.block = d.block := by
    rw [sansChecksum]
    exact ⟨rfl, rfl, rfl⟩
  unfold view
  rw [hsize.1, hsize.2, hrest.1, hrest.2.1, hrest.2.2]

namespace Tables

variable {fs : Tables} {dev dev' : Buffer} {d : Ext4InodeDisk} {n : ℕ}

/-- The table of records the device holds. -/
def inodeTable (fs : Tables) (dev : Buffer) (n : ℕ) : Ext4.Ext4InodeDisk :=
  (Ext4InodeDisk.readAt dev (fs.slotAddr n)).view

/-- Writing a record back replaces one entry of that table, which is how the file operations
take it. -/
theorem inodeTable_writeRecord (hfs : fs.Formatted) (hn : fs.InRange n)
    (h : fs.writeRecord dev d n = some dev') {m : ℕ} (hm : fs.InRange m) :
    fs.inodeTable dev' m = Function.update (fs.inodeTable dev) n d.view m := by
  obtain ⟨dev'', heq, hwritten⟩ := @writeRecord_spec fs dev d n hfs hn
  obtain rfl := Option.some.inj (h.symm.trans heq)
  by_cases hmn : m = n
  · obtain ⟨l, hload, hsans, -⟩ := hwritten.loaded
    rw [loadInode_eq hfs hn] at hload
    obtain rfl := Option.some.inj hload
    rw [hmn, Function.update_self, inodeTable, ← Ext4InodeDisk.view_sansChecksum, hsans,
      Ext4InodeDisk.view_sansChecksum]
  · rw [Function.update_of_ne hmn]
    refine congrArg Ext4InodeDisk.view (Ext4InodeDisk.readAt_congr fun k hk => ?_)
    have hsize := hfs.inodeSize_ge
    have := slots_apart hfs hn hm hmn
    exact hwritten.outside _ (by omega)

end Tables

end InodeTable

end QuackOS.Ext4
