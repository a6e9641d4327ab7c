import QuackOS.Ext4.Dir
import QuackOS.Ext4.Volume
import QuackOS.Fs.Server

/-!
# The directory cache

What lies below the file-system server: the directory entries in memory (`dentry.rs`), the
inodes they hold, and the operations of `ops.rs` and `server.rs` that walk and change them.

Directory entries are kept by identity, with the count of their `Arc`s.  An entry holds its
parent by an `Arc` and its children by `Weak`s, so it leaves memory with the last open file or
child that holds it.  An inode in memory belongs to the entry it was loaded for; it is written
back when that entry goes.

* `Dentry`, `Mount` — the entries in memory and the volume;
* `Mount.clone`, `release` — taking and dropping an `Arc`;
* `Mount.lookup`, `pathWalk` — finding an entry, in memory or on the volume;
* `Mount.create`, `unlink`, `rename`, `readlink` — the operations on paths;
* `Mount.vfs` — all of this as the file systems of `FsServer`.
-/

namespace QuackOS.Fs

open Ext4 (Name Ext4Inode Ext4FileSystem Ext4DirEntry InodeAttr Volume)

/-! ## Entries -/

/-- `DentryFlags`. -/
structure DentryFlags where
  bits : UInt32
deriving DecidableEq

namespace DentryFlags

def negative : DentryFlags := ⟨0x0001⟩
def regular : DentryFlags := ⟨0x0002⟩
def directory : DentryFlags := ⟨0x0004⟩
def symlink : DentryFlags := ⟨0x0008⟩
def special : DentryFlags := ⟨0x0010⟩
def miss : DentryFlags := ⟨0x0040⟩

/-- `DentryFlags::contains`. -/
def contains (f other : DentryFlags) : Bool := f.bits &&& other.bits == other.bits

/-- `DentryFlags::update_type_from_negative`. -/
def updateTypeFromNegative (f ty : DentryFlags) : DentryFlags :=
  ⟨f.bits &&& ~~~negative.bits ||| ty.bits⟩

/-- The type of an entry for an inode of this mode. -/
def ofMode (mode : UInt16) : DentryFlags :=
  let ty := mode &&& 0xF000
  if ty = 0x8000 then regular
  else if ty = 0x4000 then directory
  else if ty = 0x2000 ∨ ty = 0x6000 then special
  else if ty = 0xA000 then symlink
  else miss

end DentryFlags

/-- An inode in memory, with the fields the directory layer reads and the target `read_link`
keeps. -/
structure CachedInode where
  ext4 : Ext4Inode
  attr : InodeAttr
  link : Option Name

/-- `Dentry`, with the number of `Arc`s to it. -/
structure Dentry where
  absolutePath : Name
  parent : Option ℕ
  children : Name → Option ℕ
  flags : DentryFlags
  inode : Option CachedInode
  strong : ℕ

/-- The part of a path after its last slash; all of it when there is none. -/
def lastName (path : Name) : Name := (path.reverse.takeWhile (· ≠ '/')).reverse

/-- `str::rsplit_once('/')`. -/
def splitLast (path : Name) : Option (Name × Name) :=
  if '/' ∈ path then
    let name := lastName path
    some (path.take (path.length - name.length - 1), name)
  else none

/-- The components `path_walk` goes through. -/
def components (path : Name) : List Name :=
  ((path.dropWhile (· = '/')).splitOn '/').filter (· ≠ [])

/-- The directory entries in memory over a volume. -/
structure Mount where
  volume : Volume
  attrs : ℕ → InodeAttr
  checksumSeed : UInt32
  dentries : ℕ → Option Dentry
  nextDentry : ℕ
  root : ℕ

namespace Mount

/-- Change an entry. -/
def modify (m : Mount) (d : ℕ) (f : Dentry → Dentry) : Mount :=
  { m with dentries := Function.update m.dentries d ((m.dentries d).map f) }

/-- The inode an entry holds. -/
def inodeAt (m : Mount) (d : ℕ) : Option CachedInode := (m.dentries d).bind Dentry.inode

/-- `Dentry::is_negative`. -/
def isNegative (m : Mount) (d : ℕ) : Bool :=
  (m.dentries d).any fun D => D.flags.contains .negative

/-- `Dentry::is_dir`. -/
def isDir (m : Mount) (d : ℕ) : Bool := (m.dentries d).any fun D => D.flags.contains .directory

/-- `Dentry::get_last_name`. -/
def getLastName (m : Mount) (d : ℕ) : Name := (m.dentries d).elim [] fun D => lastName D.absolutePath

/-- The volume with its blocks changed. -/
def setFs (m : Mount) (fs : Ext4FileSystem) : Mount :=
  { m with volume := { m.volume with fs := fs } }

/-- The inode of an entry changed. -/
def setExt4 (m : Mount) (d : ℕ) (ino : Ext4Inode) : Mount :=
  m.modify d fun D => { D with inode := D.inode.map fun c => { c with ext4 := ino } }

/-! ## References -/

/-- `Arc::clone` of an entry. -/
def clone (m : Mount) (d : ℕ) : Mount := m.modify d fun D => { D with strong := D.strong + 1 }

/-- An inode leaves memory. -/
def dropInode (m : Mount) (c : CachedInode) : Option Mount :=
  (c.ext4.drop m.volume.fs).map fun fs =>
    { m.setFs fs with attrs := Function.update m.attrs c.ext4.inodeNum c.attr }

/-- An `Arc` of an entry is dropped.  With the last one the entry goes: its reference to the
parent is dropped first, then its inode.  A parent is older than its children, so the rounds
are bounded by the identity. -/
def releaseLoop : (fuel : ℕ) → Mount → ℕ → Option Mount
  | 0, m, _ => some m
  | fuel + 1, m, d =>
    match m.dentries d with
    | none => some m
    | some D =>
      if 1 < D.strong then some (m.modify d fun D => { D with strong := D.strong - 1 })
      else
        let m₁ := { m with dentries := Function.update m.dentries d none }
        (D.parent.elim (some m₁) (releaseLoop fuel m₁)).bind fun m₂ =>
          D.inode.elim (some m₂) m₂.dropInode

/-- An `Arc` of an entry is dropped. -/
def release (m : Mount) (d : ℕ) : Option Mount := releaseLoop (d + 1) m d

/-- Two `Arc`s are dropped at the end of an operation with this result. -/
def finish {α : Type} (m : Mount) (d e : ℕ) (r : Except Errno α) :
    Option (Mount × Except Errno α) := do
  let m₁ ← m.release d
  let m₂ ← m₁.release e
  return (m₂, r)

/-! ## Lookup -/

/-- `Dentry::lookup_child`: a child still in memory, with a reference taken.  A dead one is
forgotten. -/
def lookupChild (m : Mount) (d : ℕ) (name : Name) : Mount × Option ℕ :=
  match (m.dentries d).bind fun D => D.children name with
  | none => (m, none)
  | some child =>
    match m.dentries child with
    | some _ => (m.clone child, some child)
    | none =>
      (m.modify d fun D => { D with children := Function.update D.children name none }, none)

/-- A child entered under its name. -/
def insertChild (m : Mount) (d : ℕ) (name : Name) (child : ℕ) : Mount :=
  m.modify d fun D => { D with children := Function.update D.children name (some child) }

/-- `Dentry::new` with a parent. -/
def newDentry (m : Mount) (parent : ℕ) (name : Name) (flags : DentryFlags)
    (inode : Option CachedInode) : Mount × ℕ :=
  let path := (m.dentries parent).elim [] Dentry.absolutePath ++ '/' :: name
  let D : Dentry := ⟨path, some parent, fun _ => none, flags, inode, 1⟩
  let m₁ := m.clone parent
  ({ m₁ with
      dentries := Function.update m₁.dentries m₁.nextDentry (some D)
      nextDentry := m₁.nextDentry + 1 }, m₁.nextDentry)

/-- Whether the inode tables have a slot for this number. -/
def hasInode (m : Mount) (n : ℕ) : Bool :=
  n ≠ 0 ∧ m.volume.inodesPerGroup ≠ 0 ∧
    (n - 1) / m.volume.inodesPerGroup < m.volume.inodeGroups.length

/-- `load_inode`; `none` is the panic on a number outside every group. -/
def loadInode (m : Mount) (n : ℕ) : Option CachedInode :=
  if m.hasInode n then some ⟨Ext4Inode.loadInode m.volume.fs n, m.attrs n, none⟩ else none

/-- The entry for what a directory has under a name: negative for nothing, with the inode loaded
otherwise. -/
def newChild (m : Mount) (parent : ℕ) (name : Name) : Option Ext4DirEntry → Option (Mount × ℕ)
  | none => some (m.newDentry parent name .negative none)
  | some e => (m.loadInode e.inodeNum.toNat).map fun c =>
    m.newDentry parent name (.ofMode c.attr.mode) (some c)

/-- `InodeOp::lookup` for an entry with an inode. -/
def lookup (m : Mount) (parent : ℕ) (c : CachedInode) (name : Name) : Option (Mount × ℕ) :=
  match m.lookupChild parent name with
  | (m₁, some child) => some (m₁, child)
  | (m₁, none) => do
    let (entry, ino) ← c.ext4.lookup m₁.volume.fs name
    let (m₂, d) ← (m₁.setExt4 parent ino).newChild parent name entry
    return (m₂.insertChild parent name d, d)

/-- One round of `path_walk`: the child of `current` with this name. -/
def walkStep (m : Mount) (current : ℕ) (name : Name) : Option (Mount × Except Errno ℕ) :=
  match m.lookupChild current name with
  | (m₁, some child) => some (m₁, .ok child)
  | (m₁, none) =>
    match m₁.inodeAt current with
    | none => some (m₁, .error .ENOENT)
    | some c => (m₁.lookup current c name).map fun (m₂, child) =>
      (m₂.insertChild current name child, .ok child)

/-- The loop of `path_walk`: the entry the path leads to and its parent, with a reference to
each. -/
def walkLoop : List Name → Mount → ℕ → Option (Mount × Except Errno (ℕ × ℕ))
  | [], m, current => some (m.clone current, .ok (current, current))
  | name :: names, m, current => do
    let (m₁, r) ← m.walkStep current name
    match r with
    | .error e =>
      let m₂ ← m₁.release current
      return (m₂, .error e)
    | .ok next =>
      if names = [] then return (m₁, .ok (next, current))
      else
        let m₂ ← m₁.release current
        walkLoop names m₂ next

/-- `path_walk`. -/
def pathWalk (m : Mount) (path : Name) : Option (Mount × Except Errno (ℕ × ℕ)) :=
  walkLoop (components path) (m.clone m.root) m.root

/-! ## Operations on paths -/

/-- `OpenFlags::O_CREAT`. -/
def oCreat : UInt8 := 0x40

/-- The part of `open` before a descriptor is taken. -/
def openPath (m : Mount) (path : Name) (flags : UInt8) : Option (Mount × Except Errno ℕ) := do
  let (m₁, r) ← m.pathWalk path
  match r with
  | .error e => return (m₁, .error e)
  | .ok (d, parent) =>
    let m₂ ← m₁.release parent
    if m₂.isNegative d ∧ flags &&& oCreat ≠ oCreat then
      let m₃ ← m₂.release d
      return (m₃, .error .ENOENT)
    else return (m₂, .ok d)

/-- `InodeOp::create`, on the inode `c` of `parent`: a new inode for `d`, whose old one, if
there is one, leaves memory. -/
def createIn (m : Mount) (parent : ℕ) (c : CachedInode) (d : ℕ) (mode : UInt16) : Option Mount := do
  let (n, v) ← m.volume.allocInode false
  let new : CachedInode := ⟨Ext4Inode.create n, ⟨mode &&& 0xFFF ||| 0x8000, 0⟩, none⟩
  if m.hasInode n then
    let m₁ := { m with
      volume := v
      attrs := Function.update m.attrs n new.attr }
    let fs := { v.fs with inodeTable := Function.update v.fs.inodeTable n new.ext4.inodeOnDisk }
    let (ino, fs') ← c.ext4.addEntry fs m.checksumSeed c.attr.generation (m.getLastName d)
      (UInt32.ofNat n) Ext4DirEntry.dtReg
    let m₂ := (m₁.setFs fs').setExt4 parent ino
    let m₃ := m₂.modify d fun D =>
      { D with inode := some new, flags := D.flags.updateTypeFromNegative .regular }
    match m₂.inodeAt d with
    | none => some m₃
    | some old => m₃.dropInode old
  else none

/-- `create`. -/
def create (m : Mount) (path : Name) (mode : UInt16) : Option (Mount × Except Errno Unit) := do
  let (m₁, r) ← m.pathWalk path
  match r with
  | .error e => return (m₁, .error e)
  | .ok (d, parent) =>
    if m₁.isNegative d then
      match m₁.inodeAt parent with
      | none => m₁.finish parent d (.error .ENOENT)
      | some c =>
        let m₂ ← m₁.createIn parent c d mode
        m₂.finish parent d (.ok ())
    else m₁.finish parent d (.error .EEXIST)

/-- `InodeOp::unlink`, on the inode `c` of `parent`.  The entry stays in memory. -/
def unlinkIn (m : Mount) (parent : ℕ) (c : CachedInode) (d : ℕ) :
    Option (Mount × Except Errno Unit) :=
  match m.inodeAt d with
  | none => some (m, .error .ENOENT)
  | some _ => do
    let (found, ino, fs) ← c.ext4.deleteEntry m.volume.fs m.checksumSeed c.attr.generation
      (m.getLastName d)
    return ((m.setFs fs).setExt4 parent ino, if found then .ok () else .error .ENOENT)

/-- `unlink`. -/
def unlink (m : Mount) (path : Name) : Option (Mount × Except Errno Unit) := do
  let (m₁, r) ← m.pathWalk path
  match r with
  | .error e => return (m₁, .error e)
  | .ok (d, parent) =>
    if m₁.isNegative d then m₁.finish parent d (.error .ENOENT)
    else
      match m₁.inodeAt parent with
      | none => m₁.finish parent d (.error .ENOENT)
      | some c =>
        let (m₂, r) ← m₁.unlinkIn parent c d
        m₂.finish d parent r

/-- The first part of `rename`: the old name goes, if its directory is there. -/
def unlinkOld (m : Mount) (src srcParent : ℕ) : Option (Mount × Except Errno Unit) :=
  match m.inodeAt srcParent with
  | none => some (m, .ok ())
  | some c => m.unlinkIn srcParent c src

/-- The part of `rename` after both walks. -/
def renameIn (m : Mount) (src srcParent dst dstParent : ℕ) : Option (Mount × Except Errno Unit) :=
  match m.inodeAt dstParent with
  | none => some (m, .error .ENOENT)
  | some _ => do
    let (m₁, r) ← m.unlinkOld src srcParent
    match r with
    | .error e => return (m₁, .error e)
    | .ok () =>
      match m₁.inodeAt dstParent with
      | none => none
      | some c =>
        let m₂ ← m₁.createIn dstParent c dst 0o644
        return (m₂, .ok ())

/-- `rename`. -/
def rename (m : Mount) (oldPath newPath : Name) : Option (Mount × Except Errno Unit) := do
  let (m₁, r) ← m.pathWalk oldPath
  match r with
  | .error e => return (m₁, .error e)
  | .ok (src, srcParent) =>
    if m₁.isNegative src then m₁.finish srcParent src (.error .ENOENT)
    else
      let (m₂, r) ← m₁.pathWalk newPath
      match r with
      | .error e => m₂.finish srcParent src (.error e)
      | .ok (dst, dstParent) =>
        let (m₃, r) ← m₂.renameIn src srcParent dst dstParent
        let (m₄, r) ← m₃.finish dstParent dst r
        m₄.finish srcParent src r

/-- `InodeOp::read_link`, on the inode of an entry. -/
def readLink (m : Mount) (d : ℕ) : Option (Mount × Except Errno Name) :=
  match m.inodeAt d with
  | none => some (m, .error .ENOENT)
  | some c =>
    if c.attr.mode &&& 0xA000 = 0xA000 then
      match c.link with
      | some link => some (m, .ok link)
      | none => do
        let (bs, ino) ← c.ext4.linkBytes m.volume.fs
        let link := Ext4Inode.linkTarget bs
        return ((m.setExt4 d ino).modify d fun D =>
          { D with inode := D.inode.map fun c => { c with link := some link } }, .ok link)
    else some (m, .error .EINVAL)

/-- `readlink`. -/
def readlink (m : Mount) (path : Name) : Option (Mount × Except Errno Name) :=
  match splitLast path with
  | none => some (m, .error .EINVAL)
  | some (dir, name) => do
    let (m₁, r) ← m.pathWalk (if dir = [] then ['/'] else dir)
    match r with
    | .error e => return (m₁, .error e)
    | .ok (parent, other) =>
      let m₂ ← m₁.release other
      let (m₃, r) ← m₂.walkStep parent name
      match r with
      | .error e =>
        let m₄ ← m₃.release parent
        return (m₄, .error e)
      | .ok target =>
        let (m₄, r) ← m₃.readLink target
        m₄.finish target parent r

/-! ## Operations on open files -/

/-- `inode.read`. -/
def read (m : Mount) (d off count : ℕ) : Option (Mount × Except Errno (List UInt8)) :=
  match m.inodeAt d with
  | none => some (m, .error .EIo)
  | some c => (c.ext4.read m.volume.fs off count).map fun (bs, ino) =>
    (m.setExt4 d ino, .ok (bs.map UInt8.ofBitVec))

/-- `inode.write`. -/
def write (m : Mount) (d off : ℕ) (data : List UInt8) : Option (Mount × Except Errno ℕ) :=
  match m.inodeAt d with
  | none => some (m, .error .EIo)
  | some c => (c.ext4.write m.volume.fs off (data.map UInt8.toBitVec)).map fun (n, ino, fs) =>
    ((m.setFs fs).setExt4 d ino, .ok n)

/-- `inode.getdents`.  An inode without links puts the cursor back to the start. -/
def getdents (m : Mount) (d off count : ℕ) : Option (Mount × Option (ℕ × List UInt8)) :=
  match m.inodeAt d with
  | none => some (m, none)
  | some c => (c.ext4.getdents m.volume.fs off count).map fun (r, ino) =>
    (m.setExt4 d ino, some (r.elim (0, []) fun (n, bs) => (off + n, bs.map UInt8.ofBitVec)))

/-- The file systems below the server. -/
def vfs : Vfs Mount ℕ where
  openPath m path flags := m.openPath path.toList flags
  read := read
  write := write
  size m d := (m.inodeAt d).elim 0 fun c => c.ext4.getSize
  stat m d := (m.inodeAt d).map fun c => BitVec.ofNat 64 c.ext4.getSize
  isDir := isDir
  getdents := getdents
  release := release
  readlink m path := (m.readlink path.toList).map fun (m', r) => (m', r.map String.ofList)
  create m path mode := m.create path.toList (UInt16.ofNat mode.toNat)
  unlink m path := m.unlink path.toList
  rename m oldPath newPath := m.rename oldPath.toList newPath.toList

/-- The entries of a server that starts: `/`, with inode 2. -/
def new (volume : Volume) (attrs : ℕ → InodeAttr) (checksumSeed : UInt32) : Mount where
  volume := volume
  attrs := attrs
  checksumSeed := checksumSeed
  dentries := Function.update (fun _ => none) 0 (some
    ⟨['/'], none, fun _ => none, .directory,
      some ⟨Ext4Inode.loadInode volume.fs 2, attrs 2, none⟩, 1⟩)
  nextDentry := 1
  root := 0

end Mount

end QuackOS.Fs
