import QuackOS.Ext4.FileStore
import QuackOS.Fs.Mount

/-!
# The ideal file server

What the file-system server is for: byte sequences by number, names read out of the bytes of
directories, and a table of cursors.  There is no cache of entries, inodes or pages here, no tree
and no device.

* `FileStore.child`, `resolve` — the file a name, and a path, lead to;
* `Image`, `Image.serve` — the files, the open files, and the requests on them;
* `Answer.wire` — the response an answer is sent as.
-/

namespace QuackOS.Fs

open Slice
open Ext4 (Name FileData FileStore)

/-! ## Names -/

/-- What a directory has under a name: no file, or the number of one. -/
def child (a : FileStore) (n : ℕ) (name : Name) : Option (Option ℕ) :=
  (a n).bind fun f => (Ext4.DirContent.find f.bytes name).map fun e => e.map fun e => e.inodeNum.toNat

/-- What a path leads to from here.  Only its last name may be missing. -/
def resolve (a : FileStore) : Option ℕ → List Name → Option (Except Errno (Option ℕ))
  | node, [] => some (.ok node)
  | none, _ :: _ => some (.error .ENOENT)
  | some n, name :: names => (child a n name).bind fun node => resolve a node names

/-! ## Requests -/

/-- An open file: its number, if it is there, and the cursor. -/
structure OpenFile where
  node : Option ℕ
  pos : ℕ

/-- The files and the table of open files. -/
structure Image where
  files : FileStore
  table : ℕ → Option OpenFile

/-- What a request is answered with. -/
inductive Answer
  | nothing
  | failed (e : Errno)
  | value (n : BitVec 64)
  | data (bytes : List (BitVec 8))
  | closed

/-- The response an answer is sent as. -/
def Answer.wire : Answer → Option (List UInt8)
  | .nothing => some (List.replicate 8 0)
  | .failed e => errResponse e
  | .value n => okResponse n []
  | .data bytes =>
    okResponse (BitVec.ofNat 64 bytes.length) ((bytes.map UInt8.ofBitVec).take 240)
  | .closed => response [(0, leBytes 8 0)]

namespace Image

/-- The file behind an open file. -/
def file (i : Image) (f : OpenFile) : Option FileData := f.node.bind i.files

/-- The slot of a descriptor set. -/
def setSlot (i : Image) (fd : ℕ) (f : Option OpenFile) : Image :=
  { i with table := Function.update i.table fd f }

/-- The lowest free descriptor is opened on what was found, with the cursor at the start. -/
def take (i : Image) : Except Errno (Option ℕ) → Answer × Image
  | .error e => (.failed e, i)
  | .ok node =>
    match Slots.firstFree fdTableSize i.table with
    | none => (.failed .ENOMEM, i)
    | some fd => (.value (BitVec.ofNat 64 fd), i.setSlot fd (some ⟨node, 0⟩))

/-- `OPEN`: a descriptor on what the path leads to.  A missing file needs `O_CREAT`, which does
not make it. -/
def openFile (i : Image) (path : String) (flags : UInt8) : Option (Answer × Image) :=
  (resolve i.files (some 2) (components path.toList)).map fun r =>
    i.take (r.bind fun node =>
      if node = none ∧ flags &&& Mount.oCreat ≠ Mount.oCreat then .error .ENOENT else .ok node)

/-- `READ`: the bytes at the cursor, which moves behind them. -/
def read (i : Image) (fd count : ℕ) : Answer × Image :=
  match i.table fd with
  | none => (.failed .EBADF, i)
  | some f =>
    match i.file f with
    | none => (.failed .EIo, i)
    | some d =>
      let bytes := Contents.read f.pos count d.bytes
      (.data bytes, i.setSlot fd (some { f with pos := f.pos + bytes.length }))

/-- `WRITE`: the bytes are put at the cursor, which moves behind them. -/
def write (i : Image) (fd : ℕ) (buf : List (BitVec 8)) : Answer × Image :=
  match i.table fd with
  | none => (.failed .EBADF, i)
  | some f =>
    match f.node with
    | none => (.failed .EIo, i)
    | some n =>
      match i.files n with
      | none => (.failed .EIo, i)
      | some d =>
        let d' := { d with bytes := Contents.write 0 f.pos buf d.bytes }
        (.value (BitVec.ofNat 64 buf.length),
          { files := i.files.put n (some d')
            table := Function.update i.table fd (some { f with pos := f.pos + buf.length }) })

/-- Where a seek counts from. -/
def seekBase (whence : SeekWhence) (pos size : ℕ) : ℤ :=
  match whence with
  | .set => 0
  | .cur => pos
  | .fromEnd => size

/-- `LSEEK`. -/
def lseek (i : Image) (fd : ℕ) (offset : BitVec 64) (whence : SeekWhence) : Answer × Image :=
  match i.table fd with
  | none => (.failed .EBADF, i)
  | some f =>
    let base := seekBase whence f.pos ((i.file f).elim 0 fun d => d.bytes.length)
    let target := base + offset.toInt
    if 2 ^ 63 ≤ base ∨ target < 0 ∨ 2 ^ 63 ≤ target then (.failed .EINVAL, i)
    else (.value (BitVec.ofNat 64 target.toNat), i.setSlot fd (some { f with pos := target.toNat }))

/-- `FSTAT`: the size. -/
def fstat (i : Image) (fd : ℕ) : Answer :=
  match (i.table fd).bind i.file with
  | none => .failed .EBADF
  | some d => .value (BitVec.ofNat 64 d.bytes.length)

/-- `GETDENTS`: records from the cursor on, as many as there is room for. -/
def getdents (dir : ℕ → Bool) (i : Image) (fd count : ℕ) : Option (Answer × Image) :=
  match i.table fd with
  | none => some (.failed .EBADF, i)
  | some f =>
    if f.node.any dir then
      match i.file f with
      | none => some (.data [], i)
      | some d =>
        if d.bytes.length < f.pos then none
        else (Ext4.DirContent.getdents (d.bytes.drop f.pos) count).map fun (n, bytes) =>
          (.data bytes, i.setSlot fd (some { f with pos := f.pos + n }))
    else some (.failed .ENOTDIR, i)

/-- `CLOSE`: the descriptor is free again, and nothing happens to the file. -/
def close (i : Image) (fd : ℕ) : Answer × Image :=
  match i.table fd with
  | none => (.failed .EBADF, i)
  | some _ => (.closed, i.setSlot fd none)

/-- The answer to a request.  Requests that change names are not served here. -/
def serve (dir : ℕ → Bool) (i : Image) : Request → Option (Answer × Image)
  | .empty => some (.nothing, i)
  | .unknown _ => some (.failed .ENOSYS, i)
  | .openFile flags path => i.openFile path flags
  | .read fd count => some (i.read fd.toNat (min count.toNat 240))
  | .write fd data => some (i.write fd.toNat (data.map UInt8.toBitVec))
  | .lseek fd offset whence => some (i.lseek fd.toNat offset whence)
  | .fstat fd => some (i.fstat fd.toNat, i)
  | .getdents fd count => i.getdents dir fd.toNat (min count.toNat 240)
  | .close fd => some (i.close fd.toNat)
  | .readlink _ | .create .. | .unlink _ | .rename .. => none

/-- The response to a request. -/
def respond (dir : ℕ → Bool) (i : Image) (r : Request) : Option (List UInt8 × Image) :=
  (i.serve dir r).bind fun (answer, i') => answer.wire.map fun resp => (resp, i')

theorem respond_of_serve {dir : ℕ → Bool} {i i' : Image} {r : Request} {answer : Answer}
    {resp : List UInt8} (h : i.serve dir r = some (answer, i')) (hresp : answer.wire = some resp) :
    i.respond dir r = some (resp, i') := by
  simp only [respond, h, Option.bind_some, hresp, Option.map_some]

end Image

end QuackOS.Fs
