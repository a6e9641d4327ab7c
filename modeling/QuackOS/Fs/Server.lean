import QuackOS.Fs.Wire
import QuackOS.Lib.Slots
import QuackOS.Lib.Run

/-!
# The file-system server

`FsServer::dispatch` with the file table it works on.  What lies below a file — the directory
cache and the inodes, which the source reaches through `Arc<Dentry>` and `dyn InodeOp` — is a
parameter `Vfs`; what is here is the table of open files, the cursor of each file, and the
bytes of the responses.

Every function that may panic returns an `Option`, with `none` for the panic.

* `Vfs`, `File`, `FdTable`, `FsServer` — the state;
* `FsServer.dispatch` — one request;
* `FsServer.serve_of_not_open` — a request on a descriptor that is not open changes nothing.
-/

namespace QuackOS.Fs

open QuackOS.Slice

/-- `Errno`, as far as the server returns it. -/
inductive Errno
  | ENOENT | EIo | EBADF | ENOMEM | EEXIST | ENOTDIR | EINVAL | ENOSPC | ENOSYS
  deriving DecidableEq, Repr

def Errno.code : Errno → ℤ
  | .ENOENT => 2
  | .EIo => 5
  | .EBADF => 9
  | .ENOMEM => 12
  | .EEXIST => 17
  | .ENOTDIR => 20
  | .EINVAL => 22
  | .ENOSPC => 28
  | .ENOSYS => 38

/-- The file systems below the server: the state `σ` of the directory cache and the inodes, and
the operations on a directory entry `δ` that an open file holds. -/
structure Vfs (σ δ : Type) where
  /-- `path_walk`, with the check for a missing file that `open` makes. -/
  openPath : σ → String → UInt8 → Option (σ × Except Errno δ)
  /-- `inode.read` from an offset, for at most so many bytes. -/
  read : σ → δ → ℕ → ℕ → Option (σ × Except Errno (List UInt8))
  /-- `inode.write`, with the number of bytes it wrote. -/
  write : σ → δ → ℕ → List UInt8 → Option (σ × Except Errno ℕ)
  /-- `inode.get_size`. -/
  size : σ → δ → ℕ
  /-- The size in `inode.get_stat`, if there is an inode. -/
  stat : σ → δ → Option (BitVec 64)
  isDir : σ → δ → Bool
  /-- `inode.getdents`: the new position and the records; `none` inside if there is no inode. -/
  getdents : σ → δ → ℕ → ℕ → Option (σ × Option (ℕ × List UInt8))
  /-- The reference of a closed file is dropped. -/
  release : σ → δ → Option σ
  readlink : σ → String → Option (σ × Except Errno String)
  create : σ → String → BitVec 64 → Option (σ × Except Errno Unit)
  unlink : σ → String → Option (σ × Except Errno Unit)
  rename : σ → String → String → Option (σ × Except Errno Unit)

/-- `File`: a directory entry, the cursor, and the flags of the open. -/
structure File (δ : Type) where
  dentry : δ
  pos : ℕ
  flags : UInt8

/-- `FD_TABLE_SIZE`. -/
def fdTableSize : ℕ := 256

/-- `FdTable`. -/
abbrev FdTable (δ : Type) := ℕ → Option (File δ)

namespace FdTable

variable {δ : Type}

/-- `FdTable::alloc_fd`. -/
def allocFd (t : FdTable δ) (file : File δ) : Option (ℕ × FdTable δ) :=
  (Slots.firstFree fdTableSize t).map fun i => (i, Function.update t i (some file))

/-- `FdTable::get_file`. -/
def getFile (t : FdTable δ) (fd : ℕ) : Option (File δ) := if fd < fdTableSize then t fd else none

/-- A file is put into a free slot. -/
theorem getFile_allocFd {t t' : FdTable δ} {file : File δ} {fd : ℕ}
    (h : t.allocFd file = some (fd, t')) :
    t'.getFile = Function.update t.getFile fd (some file) ∧ t.getFile fd = none ∧
      fd < fdTableSize := by
  obtain ⟨i, hi, heq⟩ := Option.map_eq_some_iff.mp h
  obtain ⟨hfree, hlt, -⟩ := Slots.firstFree_eq_some.mp hi
  cases heq
  refine ⟨funext fun gd => ?_, by rw [getFile, if_pos hlt, hfree], hlt⟩
  by_cases hgd : gd = fd
  · subst hgd
    simp [getFile, hlt]
  · simp [getFile, hgd]

/-- Only a full table has no slot. -/
theorem full_of_allocFd {t : FdTable δ} {file : File δ} (h : t.allocFd file = none) (fd : ℕ)
    (hfd : fd < fdTableSize) : t.getFile fd ≠ none := by
  rw [getFile, if_pos hfd]
  exact Slots.firstFree_eq_none.mp (Option.map_eq_none_iff.mp h) fd hfd

end FdTable

/-- `FsServer`: the file systems and the tables of open files by process. -/
structure FsServer (σ δ : Type) where
  vfs : σ
  fdTables : ℕ → Option (FdTable δ)

/-! ## Responses -/

/-- A response: 256 zero bytes with fields copied to offsets. -/
def response (fields : List (ℕ × List UInt8)) : Option (List UInt8) :=
  fields.foldlM (fun resp f => blit resp f.1 f.2) (List.replicate 256 0)

/-- The response to a failed request. -/
def errResponse (e : Errno) : Option (List UInt8) :=
  response [(0, leBytes 8 (BitVec.ofInt 64 (-e.code)))]

/-- The response with a result, and maybe some bytes. -/
def okResponse (n : BitVec 64) (data : List UInt8) : Option (List UInt8) :=
  response [(0, leBytes 8 0), (8, leBytes 8 n), (16, data)]

namespace FsServer

variable {σ δ : Type} (V : Vfs σ δ)

/-- The open file behind a descriptor of a process. -/
def file (s : FsServer σ δ) (pid fd : ℕ) : Option (File δ) :=
  (s.fdTables pid).bind fun t => t.getFile fd

/-- The slot of a descriptor set. -/
def setFile (s : FsServer σ δ) (pid fd : ℕ) (f : Option (File δ)) : FsServer σ δ :=
  let table := (s.fdTables pid).map fun t => Function.update t fd f
  { s with fdTables := Function.update s.fdTables pid table }

section OpenFile

variable {s : FsServer σ δ} {pid fd : ℕ} {f : File δ}

theorem lt_of_file (h : s.file pid fd = some f) : fd < fdTableSize := by
  obtain ⟨t, -, hfile⟩ := Option.bind_eq_some_iff.mp h
  unfold FdTable.getFile at hfile
  split at hfile
  · assumption
  · cases hfile

/-- A slot of an open file is set. -/
theorem file_setFile_eq (h : s.file pid fd = some f) (o : Option (File δ)) :
    (s.setFile pid fd o).file pid = Function.update (s.file pid) fd o := by
  have hlt := lt_of_file h
  obtain ⟨t, ht, -⟩ := Option.bind_eq_some_iff.mp h
  funext gd
  by_cases hgd : gd = fd
  · subst hgd
    simp [file, setFile, ht, FdTable.getFile, hlt]
  · simp [file, setFile, ht, FdTable.getFile, hgd]

end OpenFile

/-- `open`. -/
def openFile (s : FsServer σ δ) (pid : ℕ) (path : String) (flags : UInt8) :
    Option (FsServer σ δ × Except Errno ℕ) := do
  let (vfs, r) ← V.openPath s.vfs path flags
  match r with
  | .error e => return ({ s with vfs }, .error e)
  | .ok d =>
    let table := (s.fdTables pid).getD fun _ => none
    match table.allocFd ⟨d, 0, flags⟩ with
    | some (fd, table) =>
      return ({ vfs, fdTables := Function.update s.fdTables pid (some table) }, .ok fd)
    | none =>
      -- the file goes out of scope, but the table stays
      let vfs ← V.release vfs d
      return ({ vfs, fdTables := Function.update s.fdTables pid (some table) }, .error .ENOMEM)

/-- What `open` does to the table of the process. -/
theorem openFile_cases {s s' : FsServer σ δ} {pid : ℕ} {path : String} {flags : UInt8}
    {r : Except Errno ℕ} (h : s.openFile V pid path flags = some (s', r)) :
    (∃ e, V.openPath s.vfs path flags = some (s'.vfs, .error e) ∧ r = .error e ∧
      s'.file pid = s.file pid) ∨
    (∃ d fd, V.openPath s.vfs path flags = some (s'.vfs, .ok d) ∧ r = .ok fd ∧
      s.file pid fd = none ∧ fd < fdTableSize ∧
      s'.file pid = Function.update (s.file pid) fd (some ⟨d, 0, flags⟩)) ∨
    ∃ m d, V.openPath s.vfs path flags = some (m, .ok d) ∧ V.release m d = some s'.vfs ∧
      r = .error .ENOMEM ∧ s'.file pid = s.file pid ∧
      ∀ fd < fdTableSize, s.file pid fd ≠ none := by
  have htable : ((s.fdTables pid).getD fun _ => none).getFile = s.file pid := by
    funext fd
    unfold file FdTable.getFile
    cases s.fdTables pid <;> simp
  have hfile (vfs : σ) (t : FdTable δ) :
      FsServer.file ⟨vfs, Function.update s.fdTables pid (some t)⟩ pid = t.getFile := by
    funext fd
    simp [file]
  obtain ⟨⟨m, r₁⟩, hopen, h⟩ := Option.bind_eq_some_iff.mp h
  cases r₁ with
  | error e =>
    cases h
    exact .inl ⟨e, hopen, rfl, rfl⟩
  | ok d =>
    dsimp only at h
    split at h
    · rename_i fd table halloc
      cases h
      obtain ⟨hnew, hfree, hlt⟩ := FdTable.getFile_allocFd halloc
      rw [htable] at hnew hfree
      exact .inr (.inl ⟨d, fd, hopen, rfl, hfree, hlt, (hfile m table).trans hnew⟩)
    · rename_i halloc
      obtain ⟨m₂, hrelease, h⟩ := Option.bind_eq_some_iff.mp h
      cases h
      refine .inr (.inr ⟨m, d, hopen, hrelease, rfl, (hfile m₂ _).trans htable, fun fd hfd => ?_⟩)
      rw [← htable]
      exact FdTable.full_of_allocFd halloc fd hfd

/-- `File::read`, for `OP_READ`. -/
def read (s : FsServer σ δ) (pid fd count : ℕ) :
    Option (FsServer σ δ × Except Errno (List UInt8)) :=
  match s.file pid fd with
  | none => some (s, .error .EBADF)
  | some f => do
    let (vfs, r) ← V.read s.vfs f.dentry f.pos count
    match r with
    | .error e => return ({ s with vfs }, .error e)
    | .ok data =>
      return ({ s with vfs }.setFile pid fd (some { f with pos := f.pos + data.length }), .ok data)

/-- `write`. -/
def write (s : FsServer σ δ) (pid fd : ℕ) (data : List UInt8) :
    Option (FsServer σ δ × Except Errno ℕ) :=
  match s.file pid fd with
  | none => some (s, .error .EBADF)
  | some f => do
    let (vfs, r) ← V.write s.vfs f.dentry f.pos data
    match r with
    | .error e => return ({ s with vfs }, .error e)
    | .ok n => return ({ s with vfs }.setFile pid fd (some { f with pos := f.pos + n }), .ok n)

/-- `close`. -/
def close (s : FsServer σ δ) (pid fd : ℕ) : Option (FsServer σ δ × Except Errno Unit) :=
  match s.file pid fd with
  | none => some (s, .error .EBADF)
  | some f => do
    let vfs ← V.release s.vfs f.dentry
    return ({ s with vfs }.setFile pid fd none, .ok ())

/-- `File::seek`: the new cursor, or `EINVAL` when it is negative or does not fit. -/
def seek (size : ℕ) (f : File δ) (offset : BitVec 64) (whence : SeekWhence) : Except Errno ℕ :=
  let base := match whence with
    | .set => 0
    | .cur => f.pos
    | .fromEnd => size
  if 2 ^ 63 ≤ base then .error .EINVAL
  else
    let new := (base : ℤ) + offset.toInt
    if new < 0 ∨ 2 ^ 63 ≤ new then .error .EINVAL else .ok new.toNat

/-- `lseek`. -/
def lseek (s : FsServer σ δ) (pid fd : ℕ) (offset : BitVec 64) (whence : SeekWhence) :
    FsServer σ δ × Except Errno ℕ :=
  match s.file pid fd with
  | none => (s, .error .EBADF)
  | some f =>
    match seek (V.size s.vfs f.dentry) f offset whence with
    | .error e => (s, .error e)
    | .ok pos => (s.setFile pid fd (some { f with pos }), .ok pos)

/-- `fstat`. -/
def fstat (s : FsServer σ δ) (pid fd : ℕ) : Except Errno (BitVec 64) :=
  match (s.file pid fd).bind fun f => V.stat s.vfs f.dentry with
  | none => .error .EBADF
  | some size => .ok size

/-- `getdents`. -/
def getdents (s : FsServer σ δ) (pid fd count : ℕ) :
    Option (FsServer σ δ × Except Errno (List UInt8)) :=
  match s.file pid fd with
  | none => some (s, .error .EBADF)
  | some f =>
    if V.isDir s.vfs f.dentry then do
      let (vfs, r) ← V.getdents s.vfs f.dentry f.pos count
      match r with
      | none => return ({ s with vfs }, .ok [])
      | some (pos, data) => return ({ s with vfs }.setFile pid fd (some { f with pos }), .ok data)
    else some (s, .error .ENOTDIR)

/-- The response that an outcome is turned into. -/
def respond {α : Type} (r : FsServer σ δ × Except Errno α)
    (ok : α → Option (List UInt8)) : Option (FsServer σ δ × List UInt8) :=
  match r.2 with
  | .ok a => (ok a).map fun resp => (r.1, resp)
  | .error e => (errResponse e).map fun resp => (r.1, resp)

/-- The outcome of an operation on the file systems alone. -/
def withVfs {α : Type} (s : FsServer σ δ) (r : σ × Except Errno α) :
    FsServer σ δ × Except Errno α := ({ s with vfs := r.1 }, r.2)

/-- What `dispatch` does for a request it has read.  Every table access is for process 0. -/
def serve (s : FsServer σ δ) : Request → Option (FsServer σ δ × List UInt8)
  | .empty => some (s, List.replicate 8 0)
  | .unknown _ => (errResponse .ENOSYS).map fun resp => (s, resp)
  | .openFile flags path => do
    respond (← s.openFile V 0 path flags) fun fd => okResponse (BitVec.ofNat 64 fd) []
  | .read fd count => do
    respond (← s.read V 0 fd.toNat (min count.toNat 240)) fun data =>
      okResponse (BitVec.ofNat 64 data.length) (data.take 240)
  | .close fd => do respond (← s.close V 0 fd.toNat) fun _ => response [(0, leBytes 8 0)]
  | .fstat fd => respond (s, s.fstat V 0 fd.toNat) fun size => okResponse size []
  | .lseek fd offset whence =>
    respond (s.lseek V 0 fd.toNat offset whence) fun pos => okResponse (BitVec.ofNat 64 pos) []
  | .write fd data => do
    respond (← s.write V 0 fd.toNat data) fun n => okResponse (BitVec.ofNat 64 n) []
  | .getdents fd count => do
    respond (← s.getdents V 0 fd.toNat (min count.toNat 240)) fun data =>
      okResponse (BitVec.ofNat 64 data.length) (data.take 240)
  | .readlink path => do
    -- up to 248 bytes of the target are copied to offset 16 of the 256 bytes
    respond (s.withVfs (← V.readlink s.vfs path)) fun target =>
      let t := (utf8 target).take 248
      okResponse (BitVec.ofNat 64 t.length) t
  | .create mode path => do
    respond (s.withVfs (← V.create s.vfs path mode)) fun _ => response []
  | .unlink path => do respond (s.withVfs (← V.unlink s.vfs path)) fun _ => response []
  | .rename oldPath newPath => do
    respond (s.withVfs (← V.rename s.vfs oldPath newPath)) fun _ => response []

/-- `dispatch`: the next state and the response. -/
def dispatch (s : FsServer σ δ) (req : List UInt8) : Option (FsServer σ δ × List UInt8) :=
  (decode req).bind (s.serve V)

/-! ## Requests on descriptors that are not open -/

section NotOpen

variable {V} {s : FsServer σ δ} {r : Request} {fd : BitVec 64}

/-- The bytes of a response with nothing but an error. -/
theorem errResponse_eq (e : Errno) :
    errResponse e = some (leBytes 8 (BitVec.ofInt 64 (-e.code)) ++ List.replicate 248 0) := by
  have h := @blit_pad _ [] (leBytes 8 (BitVec.ofInt 64 (-e.code))) 0 256 0 rfl (by simp)
  simp only [List.nil_append, length_leBytes] at h
  simp only [errResponse, response, List.foldlM_cons, List.foldlM_nil, h, Option.bind_eq_bind,
    Option.bind_some]
  rfl

/-- The bytes of a response with a result. -/
theorem okResponse_eq {n : BitVec 64} {data : List UInt8} (hd : data.length ≤ 240) :
    okResponse n data =
      some (leBytes 8 0 ++ leBytes 8 n ++ data ++ List.replicate (240 - data.length) 0) := by
  have h₀ := @blit_pad _ [] (leBytes 8 0) 0 256 0 rfl (by simp)
  have h₁ := @blit_pad _ (leBytes 8 0) (leBytes 8 n) 8 248 0 (by simp) (by simp)
  have h₂ := @blit_pad _ (leBytes 8 0 ++ leBytes 8 n) data 16 240 0 (by simp) hd
  simp only [List.nil_append, length_leBytes, Nat.reduceSub] at h₀ h₁
  simp only [okResponse, response, List.foldlM_cons, List.foldlM_nil, h₀, h₁, h₂,
    Option.bind_eq_bind, Option.bind_some]
  rfl

/-- **A request on a descriptor that is not open changes nothing.** -/
theorem serve_of_not_open (hr : r.fid = some fd) (h : s.file 0 fd.toNat = none) :
    ∃ resp, s.serve V r = some (s, resp) := by
  obtain ⟨resp, hresp⟩ : ∃ resp, errResponse .EBADF = some resp := ⟨_, errResponse_eq _⟩
  refine ⟨resp, ?_⟩
  cases r with
  | empty | openFile | readlink | create | unlink | rename | unknown => cases hr
  | read _ count =>
    cases hr
    simp [serve, read, h, respond, hresp]
  | close =>
    cases hr
    simp [serve, close, h, respond, hresp]
  | fstat =>
    cases hr
    simp [serve, fstat, h, respond, hresp]
  | lseek _ offset whence =>
    cases hr
    simp [serve, lseek, h, respond, hresp]
  | write _ data =>
    cases hr
    simp [serve, write, h, respond, hresp]
  | getdents _ count =>
    cases hr
    simp [serve, getdents, h, respond, hresp]

/-- Neither does a request for the metadata of a file. -/
theorem serve_fstat : ∃ resp, s.serve V (.fstat fd) = some (s, resp) := by
  rw [serve]
  cases hs : s.fstat V 0 fd.toNat with
  | error e =>
    obtain ⟨resp, hresp⟩ : ∃ resp, errResponse e = some resp := ⟨_, errResponse_eq e⟩
    exact ⟨resp, by simp only [respond, hresp, Option.map_some]⟩
  | ok size =>
    obtain ⟨resp, hresp⟩ : ∃ resp, okResponse size [] = some resp := ⟨_, okResponse_eq (by simp)⟩
    exact ⟨resp, by simp only [respond, hresp, Option.map_some]⟩

end NotOpen

end FsServer

end QuackOS.Fs
