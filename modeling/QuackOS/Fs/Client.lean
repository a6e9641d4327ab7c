import QuackOS.Fs.Wire

/-!
# The clients of the file-system protocol

`liblinux/src/ipc.rs` and `qlibc/src/fs.rs` write the requests that the server decodes, each
with its own code and into an array of 256 zero bytes.

* `Liblinux`, `Qlibc` — the requests of the two libraries, operation by operation;
* `Call` — a call of any of them, with the requests it sends and what it means;
* `Call.faithful_iff` — **the server decodes what the caller passed exactly when the paths of
  the call fit into the request.**
-/

namespace QuackOS.Fs

open QuackOS.Slice

/-! ## Requests -/

/-- `IPC_MAX`. -/
def ipcMax : ℕ := 256

/-- A request starts as zeros with the operation in front. -/
def newRequest (op : Op) : Option (List UInt8) := blit (List.replicate ipcMax 0) 0 [op.byte]

/-- A request with a file identifier, as `fs_close` and `fs_fstat` write it. -/
def fidRequest (op : Op) (fid : BitVec 64) : Option (List UInt8) := do
  let req ← newRequest op
  blit req 1 (leBytes 8 fid)

/-- A request with a file identifier and the length of the caller's buffer, as `fs_read` and
`fs_getdents` write it. -/
def fidLenRequest (op : Op) (fid len : BitVec 64) : Option (List UInt8) := do
  let req ← fidRequest op fid
  blit req 9 (leBytes 8 len)

/-- A request with some fixed bytes and a path, cut off where the request ends. -/
def pathRequest (op : Op) (fixed : List UInt8) (path : String) : Option (List UInt8) := do
  let req ← newRequest op
  let req ← blit req 1 fixed
  let n := min (utf8 path).length (ipcMax - (1 + fixed.length))
  blit req (1 + fixed.length) ((utf8 path).take n)

/-- The request for one chunk of a write. -/
def chunkRequest (fid : BitVec 64) (chunk : List UInt8) : Option (List UInt8) := do
  let req ← fidRequest .write fid
  let req ← blit req 9 (leBytes 2 (BitVec.ofNat 64 chunk.length))
  blit req 11 chunk

/-- `MAX_CHUNK`. -/
def maxChunk : ℕ := ipcMax - 11

/-- The outcome of a call to the server: an error of the transport or of the server, or the
number of bytes it says it wrote. -/
inductive Reply
  | failed (errno : ℤ)
  | written (n : ℕ)
  deriving DecidableEq, Repr

/-- The loop of `fs_write` and `write` from `total` on: the requests it sends for the replies it
gets, and what it returns once it does.  `request` makes the request for a chunk, and `onError`
is what the loop returns for an error. -/
def writeLoop (request : List UInt8 → Option (List UInt8)) (onError : ℕ → ℤ → Except ℤ ℕ)
    (buf : List UInt8) (total : ℕ) (replies : List Reply) :
    Option (List (List UInt8) × Option (Except ℤ ℕ)) :=
  if total < buf.length then
    (request ((buf.drop total).take maxChunk)).bind fun req =>
      match replies with
      | [] => some ([req], none)
      | .failed e :: _ => some ([req], some (onError total e))
      | .written 0 :: _ => some ([req], some (.ok total))
      | .written n :: rest =>
        (writeLoop request onError buf (total + n) rest).map fun r => (req :: r.1, r.2)
  else some ([], some (.ok total))

namespace Liblinux

/-- `fs_open`; the flags are `O_RDONLY`. -/
def fsOpen (path : String) : Option (List UInt8) := pathRequest .openFile [0] path
def fsRead (fid len : BitVec 64) : Option (List UInt8) := fidLenRequest .read fid len
def fsClose (fid : BitVec 64) : Option (List UInt8) := fidRequest .close fid
def fsFstat (fid : BitVec 64) : Option (List UInt8) := fidRequest .fstat fid
def fsGetdents (fid len : BitVec 64) : Option (List UInt8) := fidLenRequest .getdents fid len
def fsReadlink (path : String) : Option (List UInt8) := pathRequest .readlink [] path

/-- `fs_lseek`. -/
def fsLseek (fid offset : BitVec 64) (whence : UInt8) : Option (List UInt8) := do
  let req ← fidLenRequest .lseek fid offset
  blit req 17 [whence]

/-- `fs_write`: after an error, what was written so far still counts. -/
def fsWrite (fid : BitVec 64) (buf : List UInt8) :
    List Reply → Option (List (List UInt8) × Option (Except ℤ ℕ)) :=
  writeLoop (chunkRequest fid) (fun total e => if 0 < total then .ok total else .error e) buf 0

end Liblinux

namespace Qlibc

/-- The byte of `/`. -/
def slash : UInt8 := 0x2f

/-- `init_cwd` and `get_cwd`: the working directory in the 256 bytes of the boot information. -/
def getCwd (boot : List UInt8) : List UInt8 :=
  let cwd := untilNul (boot.take 256)
  if cwd = [] then [slash] else cwd

/-- The working directory with a `/` behind it. -/
def cwdPrefix (cwd : List UInt8) : List UInt8 :=
  if cwd ≠ [] ∧ cwd.getLast? ≠ some slash then cwd ++ [slash] else cwd

/-- `resolve_path`, with its buffer of 512 bytes. -/
def resolvePath (cwd : List UInt8) (orig : String) : String :=
  if (utf8 orig).head? = some slash then orig
  else
    let buf := cwdPrefix cwd
    let plen := min (utf8 orig).length (512 - buf.length - 1)
    (fromUtf8 (buf ++ (utf8 orig).take plen)).getD "/"

/-- `open` leaves the byte of the flags zero. -/
def openFile (cwd : List UInt8) (path : String) : Option (List UInt8) :=
  pathRequest .openFile [0] (resolvePath cwd path)
def read (fid len : BitVec 64) : Option (List UInt8) := fidLenRequest .read fid len
def close (fid : BitVec 64) : Option (List UInt8) := fidRequest .close fid
def getdents (fid len : BitVec 64) : Option (List UInt8) := fidLenRequest .getdents fid len
def fstat (fid : BitVec 64) : Option (List UInt8) := fidRequest .fstat fid

/-- `lseek`. -/
def lseek (fid offset : BitVec 64) (whence : UInt8) : Option (List UInt8) := do
  let req ← fidLenRequest .lseek fid offset
  blit req 17 [whence]

/-- `write`: an error is returned as such. -/
def write (fid : BitVec 64) (buf : List UInt8) :
    List Reply → Option (List (List UInt8) × Option (Except ℤ ℕ)) :=
  writeLoop (chunkRequest fid) (fun _ e => .error e) buf 0

def readlink (cwd : List UInt8) (path : String) : Option (List UInt8) :=
  pathRequest .readlink [] (resolvePath cwd path)
/-- `create`, with mode `0o644`. -/
def create (cwd : List UInt8) (path : String) : Option (List UInt8) :=
  pathRequest .create [0xA4, 0x01] (resolvePath cwd path)
def unlink (cwd : List UInt8) (path : String) : Option (List UInt8) :=
  pathRequest .unlink [] (resolvePath cwd path)

/-- `rename`: the length of the old path, the old path, and the new one.  An old path of 255
bytes or more runs over the end of the request. -/
def rename (cwd : List UInt8) (oldPath newPath : String) : Option (List UInt8) := do
  let resolvedOld := utf8 (resolvePath cwd oldPath)
  let resolvedNew := utf8 (resolvePath cwd newPath)
  let req ← newRequest .rename
  let oldLen := min resolvedOld.length 255
  let req ← blit req 1 [UInt8.ofNat oldLen]
  let req ← blit req 2 (resolvedOld.take oldLen)
  let newLen := min resolvedNew.length (ipcMax - 2 - oldLen)
  blit req (2 + oldLen) (resolvedNew.take newLen)

end Qlibc

/-! ## What the requests are made of -/

section Layout

variable {op : Op} {fid w : BitVec 64} {fixed post chunk : List UInt8} {path : String}

theorem newRequest_eq : newRequest op = some (op.byte :: List.replicate 255 0) :=
  @blit_pad _ [] [op.byte] 0 256 0 rfl (by simp)

theorem fidRequest_eq :
    fidRequest op fid = some (op.byte :: (leBytes 8 fid ++ List.replicate 247 0)) := by
  have h := @blit_pad _ [op.byte] (leBytes 8 fid) 1 255 0 rfl (by simp)
  simp only [List.cons_append, List.nil_append, length_leBytes] at h
  simp only [fidRequest, newRequest_eq, Option.bind_eq_bind, Option.bind_some, h]

theorem fidLenRequest_eq : fidLenRequest op fid w =
    some (op.byte :: (leBytes 8 fid ++ (leBytes 8 w ++ List.replicate 239 0))) := by
  have h := @blit_pad _ (op.byte :: leBytes 8 fid) (leBytes 8 w) 9 247 0 (by simp) (by simp)
  simp only [List.cons_append, List.append_assoc, length_leBytes] at h
  simp only [fidLenRequest, fidRequest_eq, Option.bind_eq_bind, Option.bind_some, h]

theorem lseekRequest_eq {whence : UInt8} :
    (fidLenRequest op fid w).bind (fun req => blit req 17 [whence]) =
      some (op.byte :: (leBytes 8 fid ++ (leBytes 8 w ++ whence :: List.replicate 238 0))) := by
  have h := @blit_pad _ (op.byte :: (leBytes 8 fid ++ leBytes 8 w)) [whence] 17 239 0 (by simp)
    (by simp)
  simp only [List.cons_append, List.nil_append, List.append_assoc] at h
  simp only [fidLenRequest_eq, Option.bind_some, h]
  rfl

theorem chunkRequest_eq (h : chunk.length ≤ maxChunk) : chunkRequest fid chunk =
    some (Op.write.byte :: (leBytes 8 fid ++ (leBytes 2 (BitVec.ofNat 64 chunk.length) ++
      (chunk ++ List.replicate (maxChunk - chunk.length) 0)))) := by
  have h₁ := @blit_pad _ (Op.write.byte :: leBytes 8 fid)
    (leBytes 2 (BitVec.ofNat 64 chunk.length)) 9 247 0 (by simp) (by simp)
  have h₂ := @blit_pad _ (Op.write.byte :: (leBytes 8 fid ++
    leBytes 2 (BitVec.ofNat 64 chunk.length))) chunk 11 245 0 (by simp) h
  simp only [List.cons_append, List.append_assoc, length_leBytes] at h₁ h₂
  simp only [chunkRequest, fidRequest_eq, Option.bind_eq_bind, Option.bind_some, h₁]
  exact h₂

theorem pathRequest_eq (h : 1 + fixed.length + (utf8 path).length ≤ 256) :
    pathRequest op fixed path = some (op.byte :: (fixed ++ (utf8 path ++
      List.replicate (255 - fixed.length - (utf8 path).length) 0))) := by
  have h₁ := @blit_pad _ [op.byte] fixed 1 255 0 rfl (by omega)
  have h₂ := @blit_pad _ (op.byte :: fixed) (utf8 path) (1 + fixed.length) (255 - fixed.length) 0
    (by rw [List.length_cons]; omega) (by omega)
  have htake : (utf8 path).take (min (utf8 path).length (ipcMax - (1 + fixed.length))) = utf8 path := by
    rw [List.take_of_length_le]
    simp only [ipcMax]
    omega
  simp only [List.cons_append, List.nil_append, List.append_assoc] at h₁ h₂
  simp only [pathRequest, newRequest_eq, Option.bind_eq_bind, Option.bind_some, h₁, htake]
  exact h₂

/-- A request with a path of any length starts with the operation and the fixed bytes. -/
theorem pathRequest_shape (h : fixed.length ≤ 255) :
    ∃ bs, pathRequest op fixed path = some (op.byte :: (fixed ++ bs)) := by
  have h₁ := @blit_pad _ [op.byte] fixed 1 255 0 rfl h
  have hcut : ((utf8 path).take (min (utf8 path).length (ipcMax - (1 + fixed.length)))).length ≤
      255 - fixed.length := by
    rw [List.length_take]
    simp only [ipcMax]
    omega
  have h₂ := @blit_pad _ (op.byte :: fixed) _ (1 + fixed.length) (255 - fixed.length) 0
    (by rw [List.length_cons]; omega) hcut
  simp only [List.cons_append, List.nil_append, List.append_assoc] at h₁ h₂
  refine ⟨(utf8 path).take (min (utf8 path).length (ipcMax - (1 + fixed.length))) ++
    List.replicate (255 - fixed.length - ((utf8 path).take (min (utf8 path).length
      (ipcMax - (1 + fixed.length)))).length) 0, ?_⟩
  simp only [pathRequest, newRequest_eq, Option.bind_eq_bind, Option.bind_some, h₁]
  exact h₂

theorem wordAt_fid {b : UInt8} : wordAt (b :: (leBytes 8 fid ++ post)) 1 8 = fid := by
  have := @wordAt_append [b] post 1 8 fid rfl fid.isLt
  simpa using this

theorem wordAt_second {b : UInt8} {n : ℕ} (hw : w.toNat < 2 ^ (8 * n)) :
    wordAt (b :: (leBytes 8 fid ++ (leBytes n w ++ post))) 9 n = w := by
  have := @wordAt_append (b :: leBytes 8 fid) post 9 n w (by simp) hw
  simpa using this

theorem wordAt_count {b : UInt8} :
    wordAt (b :: (leBytes 8 fid ++ (leBytes 8 w ++ post))) 9 8 = w := wordAt_second w.isLt

/-- A path followed by padding is read back. -/
theorem pathOf_pad {d : String} {k : ℕ} (h : (0 : UInt8) ∉ utf8 path) :
    pathOf d (utf8 path ++ List.replicate k 0) = path := by
  rw [pathOf, untilNul_pad h, fromUtf8_eq_some.mpr rfl, Option.getD_some]

theorem decode_fidLen :
    decode (Op.read.byte :: (leBytes 8 fid ++ (leBytes 8 w ++ post))) = some (.read fid w) ∧
    decode (Op.getdents.byte :: (leBytes 8 fid ++ (leBytes 8 w ++ post))) =
      some (.getdents fid w) := by
  constructor <;> simp only [decode, Op.ofByte_byte, wordAt_fid, wordAt_count]

theorem decode_fid :
    decode (Op.close.byte :: (leBytes 8 fid ++ post)) = some (.close fid) ∧
    decode (Op.fstat.byte :: (leBytes 8 fid ++ post)) = some (.fstat fid) := by
  constructor <;> simp only [decode, Op.ofByte_byte, wordAt_fid]

theorem decode_lseek {whence : SeekWhence} :
    decode (Op.lseek.byte :: (leBytes 8 fid ++ (leBytes 8 w ++ whence.byte :: post))) =
      some (.lseek fid w whence) := by
  have hget : (Op.lseek.byte :: (leBytes 8 fid ++ (leBytes 8 w ++ whence.byte :: post))).getD 17 0 =
      whence.byte := by
    simp [List.getD_eq_getElem?_getD, List.getElem?_append]
  simp only [decode, Op.ofByte_byte, wordAt_fid, wordAt_count, hget,
    SeekWhence.ofByte_byte]

theorem decode_write (h : chunk.length ≤ maxChunk) :
    decode (Op.write.byte :: (leBytes 8 fid ++ (leBytes 2 (BitVec.ofNat 64 chunk.length) ++
      (chunk ++ post)))) = some (.write fid chunk) := by
  have h245 : chunk.length ≤ 245 := h
  have hlen : (BitVec.ofNat 64 chunk.length).toNat = chunk.length := by
    rw [BitVec.toNat_ofNat, Nat.mod_eq_of_lt (by omega)]
  have hdata : sliceFrom (Op.write.byte :: (leBytes 8 fid ++
      (leBytes 2 (BitVec.ofNat 64 chunk.length) ++ (chunk ++ post)))) 11 = some (chunk ++ post) := by
    have := @sliceFrom_append _ (Op.write.byte :: (leBytes 8 fid ++
      leBytes 2 (BitVec.ofNat 64 chunk.length))) (chunk ++ post) 11 (by simp)
    simpa only [List.cons_append, List.append_assoc] using this
  have hw : (BitVec.ofNat 64 chunk.length).toNat < 2 ^ (8 * 2) := by
    rw [hlen]
    omega
  have htake : (chunk ++ post).take (min (chunk ++ post).length chunk.length) = chunk := by
    rw [List.length_append, Nat.min_eq_right (by omega), List.take_left]
  simp only [decode, Op.ofByte_byte, wordAt_fid, wordAt_second hw, hdata, hlen,
    Option.getD_some, htake]

section Path

variable {k : ℕ} (h : (0 : UInt8) ∉ utf8 path)
include h

theorem decode_open : decode (Op.openFile.byte :: ([0] ++ (utf8 path ++ List.replicate k 0))) =
    some (.openFile 0 path) := by
  have hs := @sliceFrom_append _ [Op.openFile.byte, 0] (utf8 path ++ List.replicate k 0) 2 rfl
  simp only [List.cons_append, List.nil_append] at hs ⊢
  simp only [decode, Op.ofByte_byte, hs, Option.map_some, pathOf_pad h]
  rfl

theorem decode_create : decode (Op.create.byte :: ([0xA4, 0x01] ++
    (utf8 path ++ List.replicate k 0))) = some (.create 0o644 path) := by
  have hs := @sliceFrom_append _ [Op.create.byte, 0xA4, 0x01] (utf8 path ++ List.replicate k 0) 3 rfl
  simp only [List.cons_append, List.nil_append] at hs ⊢
  have hmode : leWord [0xA4, 0x01] = 0o644 := by decide
  simp only [decode, Op.ofByte_byte, hs, Option.map_some, pathOf_pad h]
  rw [← hmode]
  rfl

theorem decode_readlink_unlink :
    decode (Op.readlink.byte :: ([] ++ (utf8 path ++ List.replicate k 0))) =
      some (.readlink path) ∧
    decode (Op.unlink.byte :: ([] ++ (utf8 path ++ List.replicate k 0))) =
      some (.unlink path) := by
  have hs := fun b => @sliceFrom_append _ [b] (utf8 path ++ List.replicate k 0) 1 rfl
  simp only [List.cons_append, List.nil_append] at hs ⊢
  constructor <;> simp only [decode, Op.ofByte_byte, hs, Option.map_some, pathOf_pad h]

end Path

/-! ## Resolved paths -/

namespace Qlibc

variable {cwd : List UInt8} {orig : String}

/-- The path resolved against the working directory, without the limits of a buffer. -/
def resolved (cwd : List UInt8) (orig : String) : List UInt8 :=
  if (utf8 orig).head? = some slash then utf8 orig else cwdPrefix cwd ++ utf8 orig

/-- A resolved path that is a string of fewer than 512 bytes fits into the buffer. -/
theorem resolvePath_eq {s : String} (hs : utf8 s = resolved cwd orig)
    (hlen : (utf8 s).length < 512) : resolvePath cwd orig = s := by
  unfold resolvePath
  unfold resolved at hs
  split at hs
  case isTrue habs =>
    rw [if_pos habs]
    exact (utf8_injective hs).symm
  case isFalse hrel =>
    rw [if_neg hrel]
    rw [hs, List.length_append] at hlen
    have htake : (utf8 orig).take (min (utf8 orig).length (512 - (cwdPrefix cwd).length - 1)) =
        utf8 orig := List.take_of_length_le (by omega)
    dsimp only
    rw [htake, ← hs, fromUtf8_eq_some.mpr rfl, Option.getD_some]

theorem zero_not_mem_cwdPrefix (h : (0 : UInt8) ∉ cwd) : (0 : UInt8) ∉ cwdPrefix cwd := by
  unfold cwdPrefix
  split
  · rw [List.mem_append]
    rintro (h' | h')
    · exact h h'
    · cases List.mem_singleton.mp h'
  · exact h

theorem zero_not_mem_resolved (hcwd : (0 : UInt8) ∉ cwd) (h : (0 : UInt8) ∉ utf8 orig) :
    (0 : UInt8) ∉ resolved cwd orig := by
  unfold resolved
  split
  · exact h
  · rw [List.mem_append]
    rintro (h' | h')
    · exact zero_not_mem_cwdPrefix hcwd h'
    · exact h h'

theorem zero_not_mem_getCwd (boot : List UInt8) : (0 : UInt8) ∉ getCwd boot := by
  unfold getCwd
  dsimp only
  split
  · decide
  · exact zero_not_mem_untilNul _

/-- The request of a rename whose paths fit. -/
theorem rename_eq {o n oldPath newPath : String} (ho : resolvePath cwd oldPath = o)
    (hn : resolvePath cwd newPath = n) (h : (utf8 o).length + (utf8 n).length ≤ 254) :
    rename cwd oldPath newPath = some (Op.rename.byte :: UInt8.ofNat (utf8 o).length ::
      (utf8 o ++ (utf8 n ++ List.replicate (254 - (utf8 o).length - (utf8 n).length) 0))) := by
  have hold : min (utf8 o).length 255 = (utf8 o).length := by omega
  have hnew : min (utf8 n).length (ipcMax - 2 - (utf8 o).length) = (utf8 n).length := by
    simp only [ipcMax]
    omega
  have h₁ := @blit_pad _ [Op.rename.byte] [UInt8.ofNat (utf8 o).length] 1 255 0 rfl (by simp)
  have h₂ := @blit_pad _ [Op.rename.byte, UInt8.ofNat (utf8 o).length] (utf8 o) 2 254 0 rfl (by omega)
  have h₃ := @blit_pad _ (Op.rename.byte :: UInt8.ofNat (utf8 o).length :: utf8 o) (utf8 n)
    (2 + (utf8 o).length) (254 - (utf8 o).length) 0 (by simp only [List.length_cons]; omega)
    (by omega)
  simp only [List.cons_append, List.nil_append, List.append_assoc, List.length_cons,
    List.length_nil] at h₁ h₂ h₃
  simp only [rename, ho, hn, newRequest_eq, Option.bind_eq_bind, Option.bind_some, hold, hnew,
    List.take_length, h₁]
  rw [show 255 - (0 + 1) = 254 from rfl, h₂, Option.bind_some, h₃]

theorem decode_rename {o n : String} {k : ℕ} (ho : (utf8 o).length ≤ 254)
    (hn : (0 : UInt8) ∉ utf8 n) :
    decode (Op.rename.byte :: UInt8.ofNat (utf8 o).length ::
      (utf8 o ++ (utf8 n ++ List.replicate k 0))) = some (.rename o n) := by
  have hlen : (UInt8.ofNat (utf8 o).length).toNat = (utf8 o).length := by
    rw [UInt8.toNat_ofNat']
    omega
  have h₁ := @sliceFrom_append _ [Op.rename.byte, UInt8.ofNat (utf8 o).length]
    (utf8 o ++ (utf8 n ++ List.replicate k 0)) 2 rfl
  have h₂ := @sliceFrom_append _ (utf8 o) (utf8 n ++ List.replicate k 0) (utf8 o).length rfl
  have htake : (utf8 o ++ (utf8 n ++ List.replicate k 0)).take
      (min (utf8 o).length (utf8 o ++ (utf8 n ++ List.replicate k 0)).length) = utf8 o := by
    rw [Nat.min_eq_left (by simp), List.take_left]
  simp only [List.cons_append, List.nil_append] at h₁
  simp only [decode, Op.ofByte_byte, List.getD_cons_succ, List.getD_cons_zero, hlen,
    Option.bind_eq_bind, Option.bind_some, h₁, h₂, htake, fromUtf8_eq_some.mpr rfl,
    Option.getD_some, trimNul_fromUtf8_pad hn]
  rfl

end Qlibc

end Layout

/-! ## Calls -/

/-- A call of one of the two libraries; `liblinux` names its functions with `fs` in front. -/
inductive Call
  | fsOpen (path : String)
  | fsRead (fid len : BitVec 64)
  | fsWrite (fid : BitVec 64) (buf : List UInt8)
  | fsClose (fid : BitVec 64)
  | fsFstat (fid : BitVec 64)
  | fsGetdents (fid len : BitVec 64)
  | fsReadlink (path : String)
  | fsLseek (fid offset : BitVec 64) (whence : SeekWhence)
  | openFile (path : String)
  | read (fid len : BitVec 64)
  | write (fid : BitVec 64) (buf : List UInt8)
  | close (fid : BitVec 64)
  | getdents (fid len : BitVec 64)
  | fstat (fid : BitVec 64)
  | lseek (fid offset : BitVec 64) (whence : SeekWhence)
  | readlink (path : String)
  | create (path : String)
  | unlink (path : String)
  | rename (oldPath newPath : String)

/-- The pieces of a buffer that a write from `total` on passes to the server: each goes on where
the server says it stopped. -/
def pieces (buf : List UInt8) (total : ℕ) (replies : List Reply) : List (List UInt8) :=
  if total < buf.length then
    (buf.drop total).take maxChunk ::
      match replies with
      | .written (n + 1) :: rest => pieces buf (total + (n + 1)) rest
      | _ => []
  else []

namespace Call

open Qlibc (resolved)

/-- The requests that a call sends; `none` when the client panics. -/
def sent (cwd : List UInt8) (replies : List Reply) : Call → Option (List (List UInt8))
  | .fsOpen path => (Liblinux.fsOpen path).map ([·])
  | .fsRead fid len => (Liblinux.fsRead fid len).map ([·])
  | .fsWrite fid buf => (Liblinux.fsWrite fid buf replies).map Prod.fst
  | .fsClose fid => (Liblinux.fsClose fid).map ([·])
  | .fsFstat fid => (Liblinux.fsFstat fid).map ([·])
  | .fsGetdents fid len => (Liblinux.fsGetdents fid len).map ([·])
  | .fsReadlink path => (Liblinux.fsReadlink path).map ([·])
  | .fsLseek fid offset whence => (Liblinux.fsLseek fid offset whence.byte).map ([·])
  | .openFile path => (Qlibc.openFile cwd path).map ([·])
  | .read fid len => (Qlibc.read fid len).map ([·])
  | .write fid buf => (Qlibc.write fid buf replies).map Prod.fst
  | .close fid => (Qlibc.close fid).map ([·])
  | .getdents fid len => (Qlibc.getdents fid len).map ([·])
  | .fstat fid => (Qlibc.fstat fid).map ([·])
  | .lseek fid offset whence => (Qlibc.lseek fid offset whence.byte).map ([·])
  | .readlink path => (Qlibc.readlink cwd path).map ([·])
  | .create path => (Qlibc.create cwd path).map ([·])
  | .unlink path => (Qlibc.unlink cwd path).map ([·])
  | .rename oldPath newPath => (Qlibc.rename cwd oldPath newPath).map ([·])

/-- What a call asks of the server; `none` when its resolved path is no string. -/
def meaning (cwd : List UInt8) (replies : List Reply) : Call → Option (List Request)
  | .fsOpen path => some [.openFile 0 path]
  | .fsRead fid len | .read fid len => some [.read fid len]
  | .fsWrite fid buf | .write fid buf => some ((pieces buf 0 replies).map (.write fid))
  | .fsClose fid | .close fid => some [.close fid]
  | .fsFstat fid | .fstat fid => some [.fstat fid]
  | .fsGetdents fid len | .getdents fid len => some [.getdents fid len]
  | .fsReadlink path => some [.readlink path]
  | .fsLseek fid offset whence | .lseek fid offset whence => some [.lseek fid offset whence]
  | .openFile path => (fromUtf8 (resolved cwd path)).map fun p => [.openFile 0 p]
  | .readlink path => (fromUtf8 (resolved cwd path)).map fun p => [.readlink p]
  | .create path => (fromUtf8 (resolved cwd path)).map fun p => [.create 0o644 p]
  | .unlink path => (fromUtf8 (resolved cwd path)).map fun p => [.unlink p]
  | .rename oldPath newPath =>
    (fromUtf8 (resolved cwd oldPath)).bind fun o =>
      (fromUtf8 (resolved cwd newPath)).map fun n => [.rename o n]

/-- The paths that the caller passed. -/
def paths : Call → List String
  | .fsOpen path | .fsReadlink path | .openFile path | .readlink path | .create path
  | .unlink path => [path]
  | .rename oldPath newPath => [oldPath, newPath]
  | _ => []

/-- Every request of the call has 256 bytes and is decoded as what the call asks for. -/
def Faithful (cwd : List UInt8) (replies : List Reply) (c : Call) : Prop :=
  ∃ reqs rs, c.sent cwd replies = some reqs ∧ c.meaning cwd replies = some rs ∧
    (∀ req ∈ reqs, req.length = 256) ∧ reqs.map decode = rs.map some

/-- The resolved path is a string of at most `limit` bytes. -/
def FitsIn (cwd : List UInt8) (path : String) (limit : ℕ) : Prop :=
  (fromUtf8 (resolved cwd path)).isSome ∧ (resolved cwd path).length ≤ limit

/-- The paths of the call fit into what its header leaves of a request. -/
def Fits (cwd : List UInt8) : Call → Prop
  | .fsOpen path => (utf8 path).length ≤ 254
  | .fsReadlink path => (utf8 path).length ≤ 255
  | .openFile path => FitsIn cwd path 254
  | .readlink path => FitsIn cwd path 255
  | .create path => FitsIn cwd path 253
  | .unlink path => FitsIn cwd path 255
  | .rename oldPath newPath =>
    (fromUtf8 (resolved cwd oldPath)).isSome ∧ (fromUtf8 (resolved cwd newPath)).isSome ∧
      (resolved cwd oldPath).length + (resolved cwd newPath).length ≤ 254
  | _ => True

section Faithful

variable {cwd : List UInt8} {replies : List Reply} {c : Call}

theorem faithful_single {req : List UInt8} {r : Request} (hs : c.sent cwd replies = some [req])
    (hm : c.meaning cwd replies = some [r]) (hlen : req.length = 256)
    (hd : decode req = some r) : c.Faithful cwd replies := by
  refine ⟨[req], [r], hs, hm, fun req' h => ?_, by simp [hd]⟩
  rw [List.mem_singleton.mp h]
  exact hlen

/-- What is decoded from 256 bytes has paths that fit. -/
theorem Faithful.length_le (h : c.Faithful cwd replies) {rs : List Request}
    (hm : c.meaning cwd replies = some rs) {r : Request} (hr : r ∈ rs) :
    r.header + (r.paths.map fun p => (utf8 p).length).sum ≤ 256 := by
  obtain ⟨reqs, rs', -, hm', hlen, hdec⟩ := h
  rw [hm] at hm'
  cases hm'
  have hmem : some r ∈ reqs.map decode := hdec ▸ List.mem_map_of_mem hr
  obtain ⟨req, hreq, hd⟩ := List.mem_map.mp hmem
  have := decode_paths_length hd (by rw [hlen req hreq]; omega)
  rwa [hlen req hreq] at this

theorem length_pathRequest {op : Op} {fixed req : List UInt8} {path : String}
    (h : pathRequest op fixed path = some req) : req.length = 256 := by
  simp only [pathRequest, newRequest, Option.bind_eq_bind, Option.bind_eq_some_iff] at h
  obtain ⟨r₀, h₀, r₁, h₁, h⟩ := h
  rw [length_blit h, length_blit h₁, length_blit h₀, List.length_replicate, ipcMax]

/-- The request for a piece of a buffer. -/
theorem chunkRequest_spec (fid : BitVec 64) {chunk : List UInt8} (h : chunk.length ≤ maxChunk) :
    ∃ req, chunkRequest fid chunk = some req ∧ req.length = 256 ∧
      decode req = some (.write fid chunk) := by
  refine ⟨_, chunkRequest_eq h, ?_, decode_write h⟩
  simp only [List.length_cons, List.length_append, length_leBytes, List.length_replicate]
  simp only [maxChunk, ipcMax] at h ⊢
  omega

/-- Every request of a write is decoded as the next piece of the buffer. -/
theorem writeLoop_spec (onError : ℕ → ℤ → Except ℤ ℕ) (fid : BitVec 64) (buf : List UInt8)
    (total : ℕ) (replies : List Reply) :
    ∃ reqs result, writeLoop (chunkRequest fid) onError buf total replies = some (reqs, result) ∧
      (∀ req ∈ reqs, req.length = 256) ∧
      reqs.map decode = ((pieces buf total replies).map (.write fid)).map some := by
  induction replies generalizing total with
  | nil =>
    unfold writeLoop pieces
    by_cases hlt : total < buf.length
    · obtain ⟨req, hreq, hlen, hdec⟩ := chunkRequest_spec fid (List.length_take_le maxChunk (buf.drop total))
      simp only [if_pos hlt, hreq, Option.bind_some]
      exact ⟨[req], none, rfl, by simp [hlen], by simp [hdec]⟩
    · simp only [if_neg hlt]
      exact ⟨[], _, rfl, by simp, rfl⟩
  | cons reply rest ih =>
    unfold writeLoop pieces
    by_cases hlt : total < buf.length
    · obtain ⟨req, hreq, hlen, hdec⟩ := chunkRequest_spec fid (List.length_take_le maxChunk (buf.drop total))
      simp only [if_pos hlt, hreq, Option.bind_some]
      -- the loop goes on only after some bytes were written
      rcases reply with e | _ | n
      · exact ⟨[req], some (onError total e), rfl, by simp [hlen], by simp [hdec]⟩
      · exact ⟨[req], some (.ok total), rfl, by simp [hlen], by simp [hdec]⟩
      · obtain ⟨reqs, result, hrun, hlens, hdecs⟩ := ih (total + (n + 1))
        refine ⟨req :: reqs, result, by simp [hrun], ?_, by simp [hdec, hdecs]⟩
        intro req' hmem
        rcases List.mem_cons.mp hmem with rfl | hmem
        · exact hlen
        · exact hlens req' hmem
    · simp only [if_neg hlt]
      exact ⟨[], _, rfl, by simp, rfl⟩

/-- A call that sends one path as it is. -/
theorem path_iff {op : Op} {fixed : List UInt8} {path : String} {r : String → Request}
    (hs : c.sent cwd replies = (pathRequest op fixed path).map ([·]))
    (hm : c.meaning cwd replies = some [r path]) (hpaths : ∀ p, (r p).paths = [p])
    (hheader : ∀ p, (r p).header = 1 + fixed.length)
    (hdec : ∀ k, decode (op.byte :: (fixed ++ (utf8 path ++ List.replicate k 0))) = some (r path)) :
    c.Faithful cwd replies ↔ 1 + fixed.length + (utf8 path).length ≤ 256 := by
  constructor
  · intro h
    have := h.length_le hm (List.mem_singleton.mpr rfl)
    simpa [hpaths, hheader] using this
  · intro h
    have hreq := @pathRequest_eq op fixed path h
    exact faithful_single (hs.trans (by rw [hreq]; rfl)) hm (length_pathRequest hreq) (hdec _)

/-- A call that resolves a path and sends it. -/
theorem resolved_iff {op : Op} {fixed : List UInt8} {path : String} {r : String → Request}
    (hs : c.sent cwd replies = (pathRequest op fixed (Qlibc.resolvePath cwd path)).map ([·]))
    (hm : c.meaning cwd replies = (fromUtf8 (resolved cwd path)).map fun p => [r p])
    (hpaths : ∀ p, (r p).paths = [p]) (hheader : ∀ p, (r p).header = 1 + fixed.length)
    (hdec : ∀ p k, (0 : UInt8) ∉ utf8 p →
      decode (op.byte :: (fixed ++ (utf8 p ++ List.replicate k 0))) = some (r p))
    (hfixed : fixed.length ≤ 255) (hcwd : (0 : UInt8) ∉ cwd) (hnul : (0 : UInt8) ∉ utf8 path) :
    c.Faithful cwd replies ↔ FitsIn cwd path (255 - fixed.length) := by
  unfold FitsIn
  cases hp : fromUtf8 (resolved cwd path) with
  | none =>
    simp only [Option.isSome_none, Bool.false_eq_true, false_and, iff_false]
    rintro ⟨reqs, rs, -, hm', -⟩
    rw [hm, hp] at hm'
    cases hm'
  | some p =>
    have hutf := fromUtf8_eq_some.mp hp
    have hm' : c.meaning cwd replies = some [r p] := by
      rw [hm, hp]
      rfl
    rw [← hutf]
    simp only [Option.isSome_some, true_and]
    constructor
    · intro h
      have := h.length_le hm' (List.mem_singleton.mpr rfl)
      simp only [hpaths, hheader, List.map_cons, List.map_nil, List.sum_cons, List.sum_nil] at this
      omega
    · intro h
      have hreq := @pathRequest_eq op fixed p (by omega)
      rw [Qlibc.resolvePath_eq hutf (by omega), hreq] at hs
      refine faithful_single hs hm' (length_pathRequest hreq) (hdec p _ ?_)
      rw [hutf]
      exact Qlibc.zero_not_mem_resolved hcwd hnul

theorem rename_iff {oldPath newPath : String} (hcwd : (0 : UInt8) ∉ cwd)
    (hnul : (0 : UInt8) ∉ utf8 newPath) :
    (rename oldPath newPath).Faithful cwd replies ↔ (rename oldPath newPath).Fits cwd := by
  simp only [Fits]
  cases ho : fromUtf8 (resolved cwd oldPath) with
  | none =>
    simp only [Option.isSome_none, Bool.false_eq_true, false_and, iff_false]
    rintro ⟨reqs, rs, -, hm, -⟩
    simp only [meaning, ho] at hm
    cases hm
  | some o =>
  cases hn : fromUtf8 (resolved cwd newPath) with
  | none =>
    simp only [Option.isSome_none, Bool.false_eq_true, false_and, and_false, iff_false]
    rintro ⟨reqs, rs, -, hm, -⟩
    simp only [meaning, ho, hn] at hm
    cases hm
  | some n =>
  have hold := fromUtf8_eq_some.mp ho
  have hnew := fromUtf8_eq_some.mp hn
  have hm : (rename oldPath newPath).meaning cwd replies = some [.rename o n] := by
    simp only [meaning, ho, hn]
    rfl
  rw [← hold, ← hnew]
  simp only [Option.isSome_some, true_and]
  constructor
  · intro h
    have := h.length_le hm (List.mem_singleton.mpr rfl)
    simp only [Request.header, Request.paths, List.map_cons, List.map_nil, List.sum_cons,
      List.sum_nil] at this
    omega
  · intro h
    have hreq := Qlibc.rename_eq (Qlibc.resolvePath_eq hold (by omega))
      (Qlibc.resolvePath_eq hnew (by omega)) h
    have hdec := @Qlibc.decode_rename o n (254 - (utf8 o).length - (utf8 n).length) (by omega)
    refine faithful_single (by simp only [sent, hreq, Option.map_some]) hm ?_ (hdec ?_)
    · simp only [List.length_cons, List.length_append, List.length_replicate]
      omega
    · rw [hnew]
      exact Qlibc.zero_not_mem_resolved hcwd hnul

section Fid

variable {op : Op} {fid w : BitVec 64} {r : Request}

theorem faithful_of_fid (hs : c.sent cwd replies = (fidRequest op fid).map ([·]))
    (hm : c.meaning cwd replies = some [r])
    (hd : ∀ post, decode (op.byte :: (leBytes 8 fid ++ post)) = some r) :
    c.Faithful cwd replies := by
  rw [fidRequest_eq, Option.map_some] at hs
  refine faithful_single hs hm ?_ (hd _)
  simp only [List.length_cons, List.length_append, length_leBytes, List.length_replicate]

theorem faithful_of_fidLen (hs : c.sent cwd replies = (fidLenRequest op fid w).map ([·]))
    (hm : c.meaning cwd replies = some [r])
    (hd : ∀ post, decode (op.byte :: (leBytes 8 fid ++ (leBytes 8 w ++ post))) = some r) :
    c.Faithful cwd replies := by
  rw [fidLenRequest_eq, Option.map_some] at hs
  refine faithful_single hs hm ?_ (hd _)
  simp only [List.length_cons, List.length_append, length_leBytes, List.length_replicate]

theorem faithful_of_lseek {whence : SeekWhence}
    (hs : c.sent cwd replies =
      ((fidLenRequest .lseek fid w).bind fun req => blit req 17 [whence.byte]).map ([·]))
    (hm : c.meaning cwd replies = some [.lseek fid w whence]) : c.Faithful cwd replies := by
  rw [lseekRequest_eq, Option.map_some] at hs
  refine faithful_single hs hm ?_ decode_lseek
  simp only [List.length_cons, List.length_append, length_leBytes, List.length_replicate]

theorem faithful_of_write {onError : ℕ → ℤ → Except ℤ ℕ} {buf : List UInt8}
    (hs : c.sent cwd replies = (writeLoop (chunkRequest fid) onError buf 0 replies).map Prod.fst)
    (hm : c.meaning cwd replies = some ((pieces buf 0 replies).map (.write fid))) :
    c.Faithful cwd replies := by
  obtain ⟨reqs, result, hrun, hlen, hdec⟩ := writeLoop_spec onError fid buf 0 replies
  rw [hrun, Option.map_some] at hs
  exact ⟨reqs, _, hs, hm, hlen, hdec⟩

end Fid

end Faithful

/-- **The server decodes what the caller passed exactly when the paths fit.**  For every call of
either library, with any arguments, any working directory and any replies of the server to the
chunks of a write: the requests are decoded as what the call asks for if and only if its paths,
resolved for `qlibc`, are strings that fit into what the header leaves of the 256 bytes. -/
theorem faithful_iff (boot : List UInt8) (replies : List Reply) (c : Call)
    (hnul : ∀ p ∈ c.paths, (0 : UInt8) ∉ utf8 p) :
    c.Faithful (Qlibc.getCwd boot) replies ↔ c.Fits (Qlibc.getCwd boot) := by
  have hcwd := Qlibc.zero_not_mem_getCwd boot
  generalize Qlibc.getCwd boot = cwd at hcwd
  have hpath : ∀ {p}, c.paths = [p] → (0 : UInt8) ∉ utf8 p := fun h =>
    hnul _ (h ▸ List.mem_singleton.mpr rfl)
  cases c with
  | fsOpen path =>
    have h := @path_iff cwd replies (.fsOpen path) .openFile [0] path (.openFile 0)
      (by simp only [sent, Liblinux.fsOpen]) (by simp only [meaning]) (fun _ => rfl) (fun _ => rfl)
      (fun k => decode_open (hpath rfl))
    simp only [List.length_cons, List.length_nil] at h
    rw [h, Fits]
    omega
  | fsReadlink path =>
    have h := @path_iff cwd replies (.fsReadlink path) .readlink [] path .readlink
      (by simp only [sent, Liblinux.fsReadlink]) (by simp only [meaning]) (fun _ => rfl)
      (fun _ => rfl) (fun k => (decode_readlink_unlink (hpath rfl)).1)
    simp only [List.length_nil] at h
    rw [h, Fits]
    omega
  | openFile path =>
    exact @resolved_iff cwd replies (.openFile path) .openFile [0] path (.openFile 0)
      (by simp only [sent, Qlibc.openFile]) (by simp only [meaning]) (fun _ => rfl) (fun _ => rfl)
      (fun p k hp => decode_open hp) (by decide) hcwd (hpath rfl)
  | readlink path =>
    exact @resolved_iff cwd replies (.readlink path) .readlink [] path .readlink
      (by simp only [sent, Qlibc.readlink]) (by simp only [meaning]) (fun _ => rfl) (fun _ => rfl)
      (fun p k hp => (decode_readlink_unlink hp).1) (by decide) hcwd (hpath rfl)
  | create path =>
    exact @resolved_iff cwd replies (.create path) .create [0xA4, 0x01] path (.create 0o644)
      (by simp only [sent, Qlibc.create]) (by simp only [meaning]) (fun _ => rfl) (fun _ => rfl)
      (fun p k hp => decode_create hp) (by decide) hcwd (hpath rfl)
  | unlink path =>
    exact @resolved_iff cwd replies (.unlink path) .unlink [] path .unlink
      (by simp only [sent, Qlibc.unlink]) (by simp only [meaning]) (fun _ => rfl) (fun _ => rfl)
      (fun p k hp => (decode_readlink_unlink hp).2) (by decide) hcwd (hpath rfl)
  | rename oldPath newPath => exact rename_iff hcwd (hnul newPath (by simp [paths]))
  | fsRead fid len =>
    exact iff_of_true (faithful_of_fidLen (by simp only [sent, Liblinux.fsRead]) rfl
      fun _ => decode_fidLen.1) trivial
  | fsGetdents fid len =>
    exact iff_of_true (faithful_of_fidLen (by simp only [sent, Liblinux.fsGetdents]) rfl
      fun _ => decode_fidLen.2) trivial
  | fsClose fid =>
    exact iff_of_true (faithful_of_fid (by simp only [sent, Liblinux.fsClose]) rfl
      fun _ => decode_fid.1) trivial
  | fsFstat fid =>
    exact iff_of_true (faithful_of_fid (by simp only [sent, Liblinux.fsFstat]) rfl
      fun _ => decode_fid.2) trivial
  | fsLseek fid offset whence =>
    exact iff_of_true (faithful_of_lseek (by simp only [sent, Liblinux.fsLseek,
      Option.bind_eq_bind]) rfl) trivial
  | fsWrite fid buf =>
    exact iff_of_true (faithful_of_write (by simp only [sent, Liblinux.fsWrite]; rfl) rfl) trivial
  | read fid len =>
    exact iff_of_true (faithful_of_fidLen (by simp only [sent, Qlibc.read]) rfl
      fun _ => decode_fidLen.1) trivial
  | getdents fid len =>
    exact iff_of_true (faithful_of_fidLen (by simp only [sent, Qlibc.getdents]) rfl
      fun _ => decode_fidLen.2) trivial
  | close fid =>
    exact iff_of_true (faithful_of_fid (by simp only [sent, Qlibc.close]) rfl
      fun _ => decode_fid.1) trivial
  | fstat fid =>
    exact iff_of_true (faithful_of_fid (by simp only [sent, Qlibc.fstat]) rfl
      fun _ => decode_fid.2) trivial
  | lseek fid offset whence =>
    exact iff_of_true (faithful_of_lseek (by simp only [sent, Qlibc.lseek,
      Option.bind_eq_bind]) rfl) trivial
  | write fid buf =>
    exact iff_of_true (faithful_of_write (by simp only [sent, Qlibc.write]; rfl) rfl) trivial

/-- A relative path that is resolved, sent and decoded. -/
theorem faithful_iff_relative :
    (openFile "a/b").Faithful (Qlibc.getCwd (utf8 "/usr" ++ List.replicate 252 0)) [] ∧
      (openFile "a/b").meaning (Qlibc.getCwd (utf8 "/usr" ++ List.replicate 252 0)) [] =
        some [.openFile 0 "/usr/a/b"] := by
  have hcwd : Qlibc.getCwd (utf8 "/usr" ++ List.replicate 252 0) = utf8 "/usr" := by decide +kernel
  have hres : fromUtf8 (resolved (utf8 "/usr") "a/b") = some "/usr/a/b" :=
    fromUtf8_eq_some.mpr (by decide)
  refine ⟨(faithful_iff _ [] (openFile "a/b") ?_).mpr ?_, ?_⟩
  · intro p hp
    rw [List.mem_singleton.mp hp]
    decide
  · rw [hcwd]
    refine ⟨by rw [hres]; rfl, ?_⟩
    rw [← fromUtf8_eq_some.mp hres]
    decide
  · rw [hcwd, meaning, hres]
    rfl

/-- A path of 255 bytes is cut off, and another file is opened. -/
theorem long_path_cut :
    (utf8 (String.ofList (List.replicate 255 'a'))).length = 255 ∧
    (0 : UInt8) ∉ utf8 (String.ofList (List.replicate 255 'a')) ∧
    ¬ (fsOpen (String.ofList (List.replicate 255 'a'))).Faithful (utf8 "/") [] := by
  have hlen : (utf8 (String.ofList (List.replicate 255 'a'))).length = 255 := by decide +kernel
  refine ⟨hlen, by decide +kernel, fun h => ?_⟩
  have := h.length_le rfl (List.mem_singleton.mpr rfl)
  simp only [Request.header, Request.paths, List.map_cons, List.map_nil, List.sum_cons,
    List.sum_nil, hlen] at this
  omega

end Call

end QuackOS.Fs
