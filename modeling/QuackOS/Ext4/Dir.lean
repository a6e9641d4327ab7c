import QuackOS.Ext4.Checksum
import QuackOS.Ext4.Inode
import QuackOS.Lib.Slice

/-!
# Directories

A directory is a file whose bytes are records of variable length (`dentry.rs`), which
`block_op.rs` scans from the front.

* `Ext4DirEntry` — one record and its byte codec;
* `DirContent` — the scans: `find`, `getdents`, `addEntry`, `deleteEntry`, `setEntry`;
* `Ext4Inode.lookup`, `getdents`, `addEntry`, `deleteEntry`, `setEntry`, `readLink` — the same on
  a file.

Names are lists of characters.  `none` stands for a panic: an index out of range, or an
`unwrap` or `expect` of an error.
-/

namespace QuackOS.Ext4

open Buffer Slice

/-! ## Names -/

/-- Names and paths, as the characters they have. -/
abbrev Name := List Char

/-- The bytes of a name. -/
def nameBytes (name : Name) : List (BitVec 8) :=
  (name.flatMap String.utf8EncodeChar).map UInt8.toBitVec

/-- The range a byte after `first` has to lie in, for a sequence of more than one byte. -/
def secondRange (first : ℕ) : ℕ × ℕ :=
  if first = 0xE0 then (0xA0, 0xBF)
  else if first = 0xED then (0x80, 0x9F)
  else if first = 0xF0 then (0x90, 0xBF)
  else if first = 0xF4 then (0x80, 0x8F)
  else (0x80, 0xBF)

/-- The number of bytes in a sequence that starts with this byte; 0 for a byte that starts
none. -/
def utf8Width (first : ℕ) : ℕ :=
  if first < 0x80 then 1
  else if 0xC2 ≤ first ∧ first ≤ 0xDF then 2
  else if 0xE0 ≤ first ∧ first ≤ 0xEF then 3
  else if 0xF0 ≤ first ∧ first ≤ 0xF4 then 4
  else 0

/-- How many bytes of `bs` go on a sequence after `first`, at most `width - 1`. -/
def continued (first width : ℕ) (bs : List (BitVec 8)) : ℕ :=
  let ok (i : ℕ) (b : BitVec 8) : Bool :=
    let (lo, hi) := if i = 0 then secondRange first else (0x80, 0xBF)
    decide (lo ≤ b.toNat ∧ b.toNat ≤ hi)
  ((bs.take (width - 1)).zipIdx.takeWhile fun (b, i) => ok i b).length

/-- The character of a sequence of `width` bytes. -/
def decodeSeq (first width : ℕ) (rest : List (BitVec 8)) : Char :=
  let head := if width = 1 then first else first % 2 ^ (7 - width)
  Char.ofNat (rest.foldl (fun acc b => acc * 64 + b.toNat % 64) head)

/-- The loop of `String::from_utf8_lossy`: a maximal part of a sequence that does not go on
becomes one replacement character. -/
def lossyLoop : (fuel : ℕ) → List (BitVec 8) → Name
  | 0, _ => []
  | _ + 1, [] => []
  | fuel + 1, b :: bs =>
    let width := utf8Width b.toNat
    let n := continued b.toNat width bs
    if n + 1 = width then decodeSeq b.toNat width (bs.take n) :: lossyLoop fuel (bs.drop n)
    else Char.ofNat 0xFFFD :: lossyLoop fuel (bs.drop n)

/-- `String::from_utf8_lossy`. -/
def fromUtf8Lossy (bs : List (BitVec 8)) : Name := lossyLoop bs.length bs

/-! ## Records -/

/-- The bytes of a list as a buffer. -/
def toBuffer (bs : List (BitVec 8)) : Buffer := fun i => bs.getD i 0

/-- The `n` lowest bytes of a number, lowest first. -/
def leList (n v : ℕ) : List (BitVec 8) := (List.range n).map fun i => BitVec.ofNat 8 (v / 256 ^ i)

/-- `Ext4DirEntry`. -/
structure Ext4DirEntry where
  inodeNum : UInt32
  recLen : UInt16
  nameLen : UInt8
  fileType : UInt8
  name : List (BitVec 8)
deriving DecidableEq

namespace Ext4DirEntry

/-- `EXT4_DT_REG`. -/
def dtReg : UInt8 := 1

/-- `EXT4_DT_DIR`. -/
def dtDir : UInt8 := 2

/-- `Ext4DirEntry::try_from`. -/
def tryFrom (buf : List (BitVec 8)) : Except String Ext4DirEntry :=
  if buf.length < 8 then .error "ext4 dirent: buf shorter than 8 bytes"
  else
    let recLen := u16At (toBuffer buf) 4
    if recLen.toNat < 8 ∨ recLen.toNat % 4 ≠ 0 ∨ buf.length < recLen.toNat then
      .error "ext4 dirent: invalid rec_len"
    else
      let nameLen : UInt8 := ⟨toBuffer buf 6⟩
      if recLen.toNat < 8 + nameLen.toNat then
        .error "ext4 dirent: name_len overflows rec_len"
      else .ok {
        inodeNum := u32At (toBuffer buf) 0
        recLen := recLen
        nameLen := nameLen
        fileType := ⟨toBuffer buf 7⟩
        name := (buf.drop 8).take nameLen.toNat }

/-- The bytes of a record: its header and the `name_len` bytes of its name. -/
def bytes (e : Ext4DirEntry) : List (BitVec 8) :=
  leList 4 e.inodeNum.toNat ++ leList 2 e.recLen.toNat ++ [e.nameLen.toBitVec, e.fileType.toBitVec] ++
    e.name.take e.nameLen.toNat

/-- `Ext4DirEntry::write_to_mem`, into the buffer from `off` on up to `stop`. -/
def writeToMem (e : Ext4DirEntry) (content : List (BitVec 8)) (off stop : ℕ) :
    Option (List (BitVec 8)) :=
  if e.name.length < e.nameLen.toNat ∨ stop < off + e.bytes.length then none
  else blit content off e.bytes

end Ext4DirEntry

/-! ## Scans -/

namespace DirContent

/-- The length field of the record at `off`; `none` when it lies past the end. -/
def recLenAt (content : List (BitVec 8)) (off : ℕ) : Option UInt16 :=
  if off + 5 < content.length then some (u16At (toBuffer content) (off + 4)) else none

/-- The record of length `recLen` at `off`; `none` when the range lies past the end. -/
def entryAt (content : List (BitVec 8)) (off recLen : ℕ) : Option (Except String Ext4DirEntry) :=
  if off + recLen ≤ content.length then
    some (Ext4DirEntry.tryFrom ((content.drop off).take recLen))
  else none

/-- The name of a record as it is compared. -/
def nameOf (e : Ext4DirEntry) : Name := fromUtf8Lossy (e.name.take e.nameLen.toNat)

/-- The loop of `Ext4DirContentRO::find`.  A record has at least 8 bytes. -/
def findLoop (content : List (BitVec 8)) (name : Name) : (fuel recLenTotal : ℕ) →
    Option (Option Ext4DirEntry)
  | 0, _ => some none
  | fuel + 1, recLenTotal =>
    if content.length ≤ recLenTotal then some none
    else
      match recLenAt content recLenTotal with
      | none => none
      | some recLen =>
        match entryAt content recLenTotal recLen.toNat with
        | none => some none
        | some (.error _) => none
        | some (.ok dentry) =>
          if nameOf dentry = name then some (some dentry)
          else findLoop content name fuel (recLenTotal + recLen.toNat)

/-- `Ext4DirContentRO::find`. -/
def find (content : List (BitVec 8)) (name : Name) : Option (Option Ext4DirEntry) :=
  findLoop content name content.length 0

/-- A record of `getdents64`: the name is followed by zeros up to a multiple of 8 bytes. -/
def linuxDirent (dentry : Ext4DirEntry) (dOff : ℕ) : List (BitVec 8) :=
  let dReclen := (19 + (dentry.name.length + 1) + 7) / 8 * 8
  leList 8 dentry.inodeNum.toNat ++ leList 8 dOff ++ leList 2 dReclen ++
    [dentry.fileType.toBitVec] ++ dentry.name ++ List.replicate (dReclen - 19 - dentry.name.length) 0

/-- The loop of `Ext4DirContentRO::getdents`: the offset it stops at and the records so far. -/
def getdentsLoop (content : List (BitVec 8)) (bufLen : ℕ) : (fuel fileOffset : ℕ) →
    List (BitVec 8) → Option (ℕ × List (BitVec 8))
  | 0, fileOffset, buf => some (fileOffset, buf)
  | fuel + 1, fileOffset, buf =>
    match recLenAt content fileOffset with
    | none => some (fileOffset, buf)
    | some recLen =>
      if recLen = 0 then some (fileOffset, buf)
      else
        match entryAt content fileOffset recLen.toNat with
        | none => some (fileOffset, buf)
        | some (.error _) => none
        | some (.ok dentry) =>
          let next := fileOffset + recLen.toNat
          if dentry.inodeNum = 0 then getdentsLoop content bufLen fuel next buf
          else
            let dirent := linuxDirent dentry next
            -- the entry is tried again by the next call
            if bufLen < buf.length + dirent.length then some (fileOffset, buf)
            else getdentsLoop content bufLen fuel next (buf ++ dirent)

/-- `Ext4DirContentRO::getdents`. -/
def getdents (content : List (BitVec 8)) (bufLen : ℕ) : Option (ℕ × List (BitVec 8)) :=
  getdentsLoop content bufLen content.length 0 []

/-- The length a record with a name of `nameLen` bytes takes. -/
def neededLen (nameLen : ℕ) : UInt16 := UInt16.ofNat ((nameLen + 8 + 3) / 4 * 4)

/-- The record `add_entry` writes. -/
def newEntry (name : Name) (inodeNum : UInt32) (recLen : UInt16) (fileType : UInt8) :
    Ext4DirEntry where
  inodeNum := inodeNum
  recLen := recLen
  nameLen := UInt8.ofNat (nameBytes name).length
  fileType := fileType
  name := nameBytes name

/-- The loop of `Ext4DirContentWE::add_entry`. -/
def addEntryLoop (content : List (BitVec 8)) (name : Name) (inodeNum : UInt32)
    (fileType : UInt8) : (fuel offset : ℕ) → Option (Except String (List (BitVec 8)))
  | 0, _ => some (.error "No space left in directory block")
  | fuel + 1, offset =>
    if content.length ≤ offset then some (.error "No space left in directory block")
    else if content.length < offset + 8 then some (.error "Invalid directory entry")
    else
      let recLen := u16At (toBuffer content) (offset + 4)
      if recLen < 8 then some (.error "Invalid rec_len")
      else
        match entryAt content offset recLen.toNat with
        | none => some (.error "Invalid rec_len")
        | some (.error _) => some (.error "Corrupted directory entry")
        | some (.ok dentry) =>
          let needed := neededLen (nameBytes name).length
          let current := neededLen dentry.nameLen.toNat
          if dentry.inodeNum = 0 ∧ needed ≤ recLen then
            -- a free record
            ((newEntry name inodeNum recLen fileType).writeToMem content offset
              content.length).map .ok
          else if dentry.inodeNum ≠ 0 ∧ current + needed ≤ recLen then
            -- the room behind a record
            do
              let content₁ ← { dentry with recLen := current }.writeToMem content offset
                content.length
              let content₂ ← (newEntry name inodeNum (recLen - current) fileType).writeToMem
                content₁ (offset + current.toNat) content.length
              return .ok content₂
          else addEntryLoop content name inodeNum fileType fuel (offset + recLen.toNat)

/-- `Ext4DirContentWE::add_entry`. -/
def addEntry (content : List (BitVec 8)) (name : Name) (inodeNum : UInt32) (fileType : UInt8) :
    Option (Except String (List (BitVec 8))) :=
  addEntryLoop content name inodeNum fileType content.length 0

/-- The loop of `Ext4DirContentWE::delete_entry`; `none` inside is `ENOENT`. -/
def deleteEntryLoop (content : List (BitVec 8)) (name : Name) :
    (fuel recLenTotal prevLenTotal : ℕ) → Option (Option (List (BitVec 8)))
  | 0, _, _ => some none
  | fuel + 1, recLenTotal, prevLenTotal =>
    if content.length ≤ recLenTotal then some none
    else do
      let recLen ← recLenAt content recLenTotal
      match ← entryAt content recLenTotal recLen.toNat with
      | .error _ => none
      | .ok dentry =>
        if nameOf dentry = name then
          if recLenTotal = 0 then
            let content' ← { dentry with inodeNum := 0 }.writeToMem content 0 recLen.toNat
            return some content'
          else
            match ← entryAt content prevLenTotal (recLenTotal - prevLenTotal) with
            | .error _ => none
            | .ok prev =>
              let content' ← { prev with recLen := prev.recLen + recLen }.writeToMem content
                prevLenTotal recLenTotal
              return some content'
        else deleteEntryLoop content name fuel (recLenTotal + recLen.toNat) recLenTotal

/-- `Ext4DirContentWE::delete_entry`. -/
def deleteEntry (content : List (BitVec 8)) (name : Name) : Option (Option (List (BitVec 8))) :=
  deleteEntryLoop content name content.length 0 0

/-- The loop of `Ext4DirContentWE::set_entry`. -/
def setEntryLoop (content : List (BitVec 8)) (oldName : Name) (newInodeNum : UInt32)
    (newFileType : UInt8) : (fuel recLenTotal : ℕ) → Option (Except String (List (BitVec 8)))
  | 0, _ => some (.error "Entry not found")
  | fuel + 1, recLenTotal =>
    if content.length ≤ recLenTotal then some (.error "Entry not found")
    else do
      let recLen ← recLenAt content recLenTotal
      match ← entryAt content recLenTotal recLen.toNat with
      | .error _ => return .error "DirEntry::try_from failed"
      | .ok dentry =>
        if nameOf dentry = oldName then
          let content' ← { dentry with
            inodeNum := newInodeNum
            fileType := newFileType }.writeToMem content recLenTotal (recLenTotal + recLen.toNat)
          return .ok content'
        else setEntryLoop content oldName newInodeNum newFileType fuel (recLenTotal + recLen.toNat)

/-- `Ext4DirContentWE::set_entry`. -/
def setEntry (content : List (BitVec 8)) (oldName : Name) (newInodeNum : UInt32)
    (newFileType : UInt8) : Option (Except String (List (BitVec 8))) :=
  setEntryLoop content oldName newInodeNum newFileType content.length 0

/-- `Ext4DirContentWE::init_dot_dotdot`. -/
def initDotDotdot (content : List (BitVec 8)) (parentInodeNum selfInodeNum : UInt32)
    (ext4BlockSize : ℕ) : Option (List (BitVec 8)) := do
  let dentry : Ext4DirEntry := ⟨selfInodeNum, 12, 1, Ext4DirEntry.dtDir, [0x2E]⟩
  let content₁ ← dentry.writeToMem content 0 9
  { dentry with
    inodeNum := parentInodeNum
    recLen := UInt16.ofNat ext4BlockSize - 12
    nameLen := 2
    name := [0x2E, 0x2E] }.writeToMem content₁ 12 22

end DirContent

/-! ## Directories as files -/

/-- The fields of an on-disk inode that only the directory layer reads. -/
structure InodeAttr where
  mode : UInt16
  generation : UInt32
deriving DecidableEq

namespace Ext4Inode

/-- `Ext4Inode::read` into a buffer that is there already. -/
def readInto (ino : Ext4Inode) (fs : Ext4FileSystem) (offset : ℕ) (buf : List (BitVec 8)) :
    Option (List (BitVec 8) × Ext4Inode) :=
  (ino.read fs offset buf.length).map fun (bs, ino') => (bs ++ buf.drop bs.length, ino')

/-- `Ext4Inode::lookup`. -/
def lookup (ino : Ext4Inode) (fs : Ext4FileSystem) (name : Name) :
    Option (Option Ext4DirEntry × Ext4Inode) := do
  let (content, ino') ← ino.readInto fs 0 (List.replicate ino.getSize 0)
  let entry ← DirContent.find content name
  return (entry, ino')

/-- `Ext4Inode::getdents`: the bytes of the directory passed over and the records, or `none`
inside for an inode without links.  A buffer of negative length cannot be allocated. -/
def getdents (ino : Ext4Inode) (fs : Ext4FileSystem) (offset bufLen : ℕ) :
    Option (Option (ℕ × List (BitVec 8)) × Ext4Inode) :=
  if ino.inodeOnDisk.linksCount = 0 then some (none, ino)
  else if ino.getSize < offset then none
  else do
    let (content, ino') ← ino.readInto fs offset (List.replicate (ino.getSize - offset) 0)
    let r ← DirContent.getdents content bufLen
    return (some r, ino')

/-- `Ext4Inode::set_dirblock_csum`: the last four bytes of the buffer are the checksum of all
but the last twelve. -/
def setDirblockCsum (ino : Ext4Inode) (seed generation : UInt32) (buf : List (BitVec 8)) :
    Option (List (BitVec 8)) :=
  if buf.length < 12 then none
  else
    let tailOff := buf.length - 12
    let iCsumSeed := crc32c (crc32c seed (leList 4 ino.inodeNum)) (leList 4 generation.toNat)
    let csum := crc32c iCsumSeed (buf.take tailOff)
    blit buf (tailOff + 8) (leList 4 csum.toNat)

/-- `EMPTY_DENTRY`: a free record of 4096 bytes. -/
def emptyDentry : List (BitVec 8) := [0x00, 0x00, 0x00, 0x00, 0x00, 0x10, 0x00, 0x00]

/-- The part of `Ext4Inode::add_entry` for a directory without room: a block is added behind its
end.  What `insert_extent` returns is not looked at. -/
def extendDir (ino : Ext4Inode) (fs : Ext4FileSystem) (name : Name) (inodeNum : UInt32)
    (fileType : UInt8) (buf : List (BitVec 8)) : Option (Ext4Inode × Ext4FileSystem) := do
  let oldDirSize := ino.getSize
  let (newBlock, fs₁) ← fs.allocOneBlock
  let (_, d, fs₂) ← ino.inodeOnDisk.insertExtent (UInt32.ofNat (oldDirSize / pageSize)) newBlock 1 fs₁
  let ino₁ := { ino with inodeOnDisk := d }.setSize (usize (oldDirSize + pageSize))
  let (_, ino₂, fs₃) ← ino₁.write fs₂ oldDirSize emptyDentry
  let (buf', ino₃) ← ino₂.readInto fs₃ oldDirSize buf
  match ← DirContent.addEntry buf' name inodeNum fileType with
  | .error _ => none
  | .ok buf'' =>
    let (_, ino₄, fs₄) ← ino₃.write fs₃ oldDirSize buf''
    return (ino₄, fs₄)

/-- `Ext4Inode::add_entry`. -/
def addEntry (ino : Ext4Inode) (fs : Ext4FileSystem) (seed generation : UInt32) (name : Name)
    (inodeNum : UInt32) (fileType : UInt8) : Option (Ext4Inode × Ext4FileSystem) := do
  let (buf, ino₁) ← ino.readInto fs 0 (List.replicate ino.getSize 0)
  match ← DirContent.addEntry buf name inodeNum fileType with
  | .ok buf' =>
    let buf'' ← ino₁.setDirblockCsum seed generation buf'
    let (_, ino₂, fs₁) ← ino₁.write fs 0 buf''
    return (ino₂, fs₁)
  | .error _ => ino₁.extendDir fs name inodeNum fileType buf

/-- `Ext4Inode::delete_entry`; `false` is `ENOENT`. -/
def deleteEntry (ino : Ext4Inode) (fs : Ext4FileSystem) (seed generation : UInt32) (name : Name) :
    Option (Bool × Ext4Inode × Ext4FileSystem) := do
  let (buf, ino₁) ← ino.readInto fs 0 (List.replicate ino.getSize 0)
  match ← DirContent.deleteEntry buf name with
  | none => return (false, ino₁, fs)
  | some buf' =>
    let buf'' ← ino₁.setDirblockCsum seed generation buf'
    let (_, ino₂, fs₁) ← ino₁.write fs 0 buf''
    return (true, ino₂, fs₁)

/-- `Ext4Inode::set_entry`: a name that is not there is a panic. -/
def setEntry (ino : Ext4Inode) (fs : Ext4FileSystem) (seed generation : UInt32) (oldName : Name)
    (newInodeNum : UInt32) (newFileType : UInt8) : Option (Ext4Inode × Ext4FileSystem) := do
  let (buf, ino₁) ← ino.readInto fs 0 (List.replicate ino.getSize 0)
  match ← DirContent.setEntry buf oldName newInodeNum newFileType with
  | .error _ => none
  | .ok buf' =>
    let buf'' ← ino₁.setDirblockCsum seed generation buf'
    let (_, ino₂, fs₁) ← ino₁.write fs 0 buf''
    return (ino₂, fs₁)

/-- The bytes `Ext4Inode::read_link` takes the target from: `i_block` for a target of at most 60
bytes, the contents of the file for a longer one. -/
def linkBytes (ino : Ext4Inode) (fs : Ext4FileSystem) : Option (List (BitVec 8) × Ext4Inode) :=
  let inodeSize := ino.inodeOnDisk.sizeLo
  if inodeSize ≤ 60 then some ((List.range inodeSize).map ino.inodeOnDisk.block, ino)
  else ino.readInto fs 0 (List.replicate inodeSize 0)

/-- The target in the bytes of a link: one character for each byte, up to the first zero. -/
def linkTarget (bs : List (BitVec 8)) : Name :=
  (bs.takeWhile (· ≠ 0)).map fun b => Char.ofNat b.toNat

end Ext4Inode

end QuackOS.Ext4
