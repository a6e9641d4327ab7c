import QuackOS.Lib.Slice

/-!
# The requests of the file-system protocol

What `FsServer::dispatch` reads out of a request before it acts on it.  A request is at most 256
bytes: an operation code, fields at fixed offsets, and for some operations a path or data up to
the end.

* `Request` — a request as the server understands it;
* `decode` — the reading, with `none` where a slice is out of range and the server panics;
* `decode_paths_length` — how long the paths of a request can be.
-/

namespace QuackOS.Fs

open QuackOS.Slice

/-- The operation codes `OP_OPEN` to `OP_RENAME`. -/
inductive Op
  | openFile | read | close | fstat | lseek | write | getdents | readlink | create | unlink | rename
  deriving DecidableEq, Repr

/-- The byte of an operation. -/
def Op.byte : Op → UInt8
  | .openFile => 1
  | .read => 2
  | .close => 3
  | .fstat => 4
  | .lseek => 5
  | .write => 6
  | .getdents => 7
  | .readlink => 8
  | .create => 9
  | .unlink => 10
  | .rename => 11

/-- The operation of a byte. -/
def Op.ofByte (b : UInt8) : Option Op :=
  [openFile, read, close, fstat, lseek, write, getdents, readlink, create, unlink, rename].find?
    fun op => op.byte = b

@[simp] theorem Op.ofByte_byte (op : Op) : Op.ofByte op.byte = some op := by
  cases op <;> decide

/-- `SeekWhence`. -/
inductive SeekWhence
  | set | cur | fromEnd
  deriving DecidableEq, Repr

def SeekWhence.byte : SeekWhence → UInt8
  | .set => 0
  | .cur => 1
  | .fromEnd => 2

/-- Any other byte counts as `Set`. -/
def SeekWhence.ofByte (b : UInt8) : SeekWhence :=
  if b = 0 then .set else if b = 1 then .cur else if b = 2 then .fromEnd else .set

@[simp] theorem SeekWhence.ofByte_byte (w : SeekWhence) : SeekWhence.ofByte w.byte = w := by
  cases w <;> decide

/-- A request as the server understands it. -/
inductive Request
  | empty
  | openFile (flags : UInt8) (path : String)
  | read (fd count : BitVec 64)
  | close (fd : BitVec 64)
  | fstat (fd : BitVec 64)
  | lseek (fd offset : BitVec 64) (whence : SeekWhence)
  | write (fd : BitVec 64) (data : List UInt8)
  | getdents (fd count : BitVec 64)
  | readlink (path : String)
  | create (mode : BitVec 64) (path : String)
  | unlink (path : String)
  | rename (oldPath newPath : String)
  | unknown (op : UInt8)
  deriving DecidableEq

/-- The path in the tail of a request: up to the first zero byte, and `d` if that is not a
string. -/
def pathOf (d : String) (bs : List UInt8) : String := (fromUtf8 (untilNul bs)).getD d

/-- What `dispatch` reads out of a request; `none` where it panics. -/
def decode : List UInt8 → Option Request
  | [] => some .empty
  | b :: tail =>
    let req := b :: tail
    match Op.ofByte b with
    | none => some (.unknown b)
    | some .openFile => (sliceFrom req 2).map fun bs => .openFile (req.getD 1 0) (pathOf "/" bs)
    | some .read => some (.read (wordAt req 1 8) (wordAt req 9 8))
    | some .close => some (.close (wordAt req 1 8))
    | some .fstat => some (.fstat (wordAt req 1 8))
    | some .lseek =>
      some (.lseek (wordAt req 1 8) (wordAt req 9 8) (SeekWhence.ofByte (req.getD 17 0)))
    | some .write =>
      let data := (sliceFrom req 11).getD []
      -- the length field cuts off the padding
      some (.write (wordAt req 1 8) (data.take (min data.length (wordAt req 9 2).toNat)))
    | some .getdents => some (.getdents (wordAt req 1 8) (wordAt req 9 8))
    | some .readlink => (sliceFrom req 1).map fun bs => .readlink (pathOf "/" bs)
    | some .create => (sliceFrom req 3).map fun bs =>
      .create (leWord [req.getD 1 0, req.getD 2 0]) (pathOf "" bs)
    | some .unlink => (sliceFrom req 1).map fun bs => .unlink (pathOf "" bs)
    | some .rename => do
      let oldLen := (req.getD 1 0).toNat
      let bs ← sliceFrom req 2
      let oldPath := (fromUtf8 (bs.take (min oldLen bs.length))).getD ""
      let newPath := (fromUtf8 (← sliceFrom bs oldLen)).getD ""
      return .rename oldPath (trimNul newPath)

/-- The paths a request names. -/
def Request.paths : Request → List String
  | .openFile _ path => [path]
  | .readlink path => [path]
  | .create _ path => [path]
  | .unlink path => [path]
  | .rename oldPath newPath => [oldPath, newPath]
  | _ => []

/-- The descriptor a request names. -/
def Request.fid : Request → Option (BitVec 64)
  | .read fd _ | .close fd | .fstat fd | .lseek fd _ _ | .write fd _ | .getdents fd _ => some fd
  | _ => none

/-- The bytes before the paths of a request. -/
def Request.header : Request → ℕ
  | .openFile .. => 2
  | .create .. => 3
  | .rename .. => 2
  | _ => 1

section Length

variable {req : List UInt8} {r : Request}

theorem length_pathOf {d : String} {bs : List UInt8} :
    (utf8 (pathOf d bs)).length ≤ max bs.length (utf8 d).length :=
  length_fromUtf8_getD.trans (max_le_max (length_untilNul_le bs) le_rfl)

/-- A path read from the tail of a request. -/
theorem length_pathOf_slice {d : String} {bs : List UInt8} {off : ℕ}
    (h : sliceFrom req off = some bs) (hd : (utf8 d).length ≤ 1) (hoff : off < req.length) :
    off + (utf8 (pathOf d bs)).length ≤ req.length := by
  have hb := length_of_sliceFrom h
  have hp : (utf8 (pathOf d bs)).length ≤ max bs.length (utf8 d).length := length_pathOf
  omega

/-- **The paths of a request fit into what the header leaves of it.** -/
theorem decode_paths_length (h : decode req = some r) (hlen : 4 ≤ req.length) :
    r.header + (r.paths.map fun p => (utf8 p).length).sum ≤ req.length := by
  have hslash : (utf8 "/").length ≤ 1 := by decide
  have hempty : (utf8 "").length = 0 := by decide
  unfold decode at h
  split at h
  case h_1 => cases hlen
  case h_2 b tail =>
  dsimp only at h
  split at h
  case h_2 | h_9 | h_10 | h_11 =>
    obtain ⟨bs, hbs, rfl⟩ := Option.map_eq_some_iff.mp h
    simp only [Request.header, Request.paths, List.map_cons, List.map_nil, List.sum_cons,
      List.sum_nil, Nat.add_zero]
    exact length_pathOf_slice hbs (by omega) (by omega)
  case h_12 =>
    -- the old path has its own length, the new one the rest
    obtain ⟨bs, hbs, h⟩ := Option.bind_eq_some_iff.mp h
    obtain ⟨bs', hbs', h⟩ := Option.bind_eq_some_iff.mp h
    cases h
    have h1 := length_of_sliceFrom hbs
    have h2 := length_of_sliceFrom hbs'
    have hold := @length_fromUtf8_getD (bs.take (min ((b :: tail).getD 1 0).toNat bs.length)) ""
    have hnew := @length_fromUtf8_getD bs' ""
    have htrim := length_trimNul_le ((fromUtf8 bs').getD "")
    simp only [Request.header, Request.paths, List.map_cons, List.map_nil, List.sum_cons,
      List.sum_nil]
    rw [List.length_take] at hold
    omega
  all_goals
    cases h
    simp only [Request.header, Request.paths, List.map_nil, List.sum_nil]
    omega

end Length

end QuackOS.Fs
