import QuackOS.Lib.Bytes
import QuackOS.Lib.Errno
import QuackOS.Linux.FdTable

/-!
# Linux tasks

`TaskStruct` of `liblinux/src/task.rs` with what the calls on descriptors use of it, and the
pipes and the console of `liblinux/src/fs.rs`.  User memory is a function from addresses to
bytes.

A function that may panic returns an `Except Panic`.  What the kernel and the file server answer
during a call is an argument, `World`.
-/

namespace QuackOS.Linux

open Bytes

/-- A machine word. -/
abbrev Word := BitVec 64

/-- The codes of `errno.rs` that the calls return. -/
inductive Errno
  | EIo | EBADF | ENOMEM | EINVAL | EMFILE | EPIPE | ENOSYS
  deriving DecidableEq, Repr

def Errno.code : Errno → ℤ
  | .EIo => 5
  | .EBADF => 9
  | .ENOMEM => 12
  | .EINVAL => 22
  | .EMFILE => 24
  | .EPIPE => 32
  | .ENOSYS => 38

/-- `-errno::E as u64`. -/
def Errno.word (e : Errno) : Word := errnoWord e.code

/-- The bytes of a buffer put to user memory from an address on. -/
def copyOut (m : Mem) (a : Word) (bs : List UInt8) : Mem :=
  fun x => (bs[(x - a).toNat]?.map UInt8.toBitVec).getD (m x)

/-- The bytes of user memory from an address on. -/
def copyFrom (m : Mem) (a : Word) (len : ℕ) : List UInt8 := (copyIn m a len).map UInt8.ofBitVec

theorem length_copyFrom {mem : Mem} (base : Word) (len : ℕ) :
    (copyFrom mem base len).length = len := by
  simp [copyFrom, copyIn]

/-- Bytes put to memory can be read there. -/
theorem copyFrom_copyOut (m : Mem) (a : Word) {bs : List UInt8} (h : bs.length < 2 ^ 64) :
    copyFrom (copyOut m a bs) a bs.length = bs := by
  refine List.ext_getElem (length_copyFrom a _) fun i hi hi' => ?_
  have hoff : (a + BitVec.ofNat 64 i - a).toNat = i := by
    rw [BitVec.add_comm, BitVec.add_sub_cancel, BitVec.toNat_ofNat]
    exact Nat.mod_eq_of_lt (by omega)
  simp only [copyFrom, copyIn, copyOut, List.getElem_map, List.getElem_range, hoff,
    List.getElem?_eq_getElem hi', Option.map_some, Option.getD_some]

/-- The ways a call can panic. -/
inductive Panic
  | underflow
  | outOfRange
  deriving DecidableEq, Repr

/-! ## Pipes -/

/-- The size of a pipe's buffer. -/
def pipeBufSize : ℕ := 4096

/-- `Pipe`: a ring of bytes with the numbers of open ends. -/
structure Pipe where
  buf : ℕ → UInt8
  readPos : ℕ
  writePos : ℕ
  byteCount : ℕ
  readers : ℕ
  writers : ℕ

/-- The pipe that `sys_pipe2` makes. -/
def Pipe.new : Pipe :=
  { buf := fun _ => 0, readPos := 0, writePos := 0, byteCount := 0, readers := 1, writers := 1 }

/-- One byte out of the ring. -/
def Pipe.take (p : Pipe) : Except Panic (UInt8 × Pipe) :=
  if pipeBufSize ≤ p.readPos then .error .outOfRange
  else if p.byteCount = 0 then .error .underflow
  else .ok (p.buf p.readPos,
    { p with readPos := (p.readPos + 1) % pipeBufSize, byteCount := p.byteCount - 1 })

/-- One byte into the ring. -/
def Pipe.put (p : Pipe) (b : UInt8) : Except Panic Pipe :=
  if pipeBufSize ≤ p.writePos then .error .outOfRange
  else .ok { p with
    buf := Function.update p.buf p.writePos b
    writePos := (p.writePos + 1) % pipeBufSize
    byteCount := p.byteCount + 1 }

/-- The loop of `pipe_read`. -/
def Pipe.takeMany : ℕ → Pipe → Except Panic (List UInt8 × Pipe)
  | 0, p => .ok ([], p)
  | n + 1, p => do
    let (b, p) ← p.take
    let (bs, p) ← Pipe.takeMany n p
    return (b :: bs, p)

/-! ## The task -/

/-- `MAX_PIPES`. -/
def maxPipes : ℕ := 16

/-- `TaskStruct`, as far as the calls modelled here use it. -/
structure TaskStruct where
  fdTable : FdTable
  /-- The program break, and the break the task started with. -/
  brk : Word
  initialBrk : Word
  /-- The next address `sys_mmap` gives out. -/
  mmapBase : Word
  /-- `c_iflag` and `c_lflag` of the console. -/
  iflag : BitVec 32
  lflag : BitVec 32
  /-- The line that canonical reads deliver from: its bytes up to `line_len`, and `line_pos`. -/
  line : List UInt8
  linePos : ℕ
  pipes : ℕ → Option Pipe

/-- `TaskStruct::new`, with the flags of `DEFAULT_TERMIOS`. -/
def TaskStruct.new (initialBrk : Word) : TaskStruct :=
  { fdTable := FdTable.new
    brk := initialBrk
    initialBrk := initialBrk
    mmapBase := 0x100000000
    iflag := 0x0500
    lflag := 0x8A3B
    line := []
    linePos := 0
    pipes := fun _ => none }

/-- What a system call leaves behind: its result (`none` while it waits), the task and user
memory. -/
structure Outcome where
  ret : Option Word
  task : TaskStruct
  mem : Mem

/-- `task.pipes[idx]`. -/
def TaskStruct.pipe (task : TaskStruct) (idx : ℕ) : Except Panic (Option Pipe) :=
  if idx < maxPipes then .ok (task.pipes idx) else .error .outOfRange

/-- `task.pipes[idx]` set. -/
def TaskStruct.setPipe (task : TaskStruct) (idx : ℕ) (p : Option Pipe) : TaskStruct :=
  { task with pipes := Function.update task.pipes idx p }

/-- `pipe_read`. -/
def pipeRead (task : TaskStruct) (mem : Mem) (idx : ℕ) (bufPtr : Word) (count : ℕ) :
    Except Panic Outcome := do
  match ← task.pipe idx with
  | none => return ⟨some (Errno.word .EBADF), task, mem⟩
  | some pipe =>
    if pipe.byteCount = 0 then return ⟨some 0, task, mem⟩
    else
      let n := min count pipe.byteCount
      let (bs, pipe) ← pipe.takeMany n
      return ⟨some (BitVec.ofNat 64 n), task.setPipe idx (some pipe), copyOut mem bufPtr bs⟩

/-- `pipe_write`; the subtraction for the free space underflows on an overfull pipe. -/
def pipeWrite (task : TaskStruct) (mem : Mem) (idx : ℕ) (bufPtr : Word) (count : ℕ) :
    Except Panic Outcome := do
  match ← task.pipe idx with
  | none => return ⟨some (Errno.word .EBADF), task, mem⟩
  | some pipe =>
    if pipe.readers = 0 then return ⟨some (Errno.word .EPIPE), task, mem⟩
    else if pipeBufSize < pipe.byteCount then .error .underflow
    else
      let n := min count (pipeBufSize - pipe.byteCount)
      let pipe ← (copyFrom mem bufPtr n).foldlM Pipe.put pipe
      return ⟨some (BitVec.ofNat 64 n), task.setPipe idx (some pipe), mem⟩

/-! ## The console -/

/-- The answers of the kernel and the file server during a call. -/
structure World where
  /-- What `console_write` returns. -/
  consoleWrite : ℤ
  /-- The results of `console_read`, one after the other: an error, or the bytes that were
  there. -/
  consoleRead : List (Option (List UInt8))
  /-- What `fs_read` returns for a file, with the bytes it put into the buffer. -/
  fsRead : Except ℤ (List UInt8)
  /-- What `fs_write` returns. -/
  fsWrite : Except ℤ ℕ

def icrnl : BitVec 32 := 0x0100
def echo : BitVec 32 := 0x0008
/-- The bit of `c_lflag` that `sys_read` tests for canonical mode. -/
def icanon : BitVec 32 := 0x0002

/-- The size of the console buffers. -/
def consoleBuf : ℕ := 4096

/-- What the loop of `console_read_canonical` ends with. -/
inductive LineRead
  | failed
  | eof
  | line (bs : List UInt8)

/-- The loop of `console_read_canonical` on the answers of `console_read`, with the line built so
far; `none` while no line is complete. -/
def readLine (icrnl : Bool) (line : List UInt8) : List (Option (List UInt8)) → Option LineRead
  | [] => none
  | none :: _ => some .failed
  | some [] :: rest => readLine icrnl line rest
  | some (b :: _) :: rest =>
    let b := if b = 0x0D ∧ icrnl then 0x0A else b
    if b = 0x7F ∨ b = 0x08 then readLine icrnl line.dropLast rest
    else if b = 0x04 then some (if line = [] then .eof else .line line)
    else if b = 0x0A then some (.line (line ++ [b]))
    else if line.length < consoleBuf - 1 then readLine icrnl (line ++ [b]) rest
    else readLine icrnl line rest

/-- `console_read_canonical`. -/
def consoleReadCanonical (task : TaskStruct) (mem : Mem) (bufPtr : Word) (count : ℕ) (w : World) :
    Outcome :=
  if task.linePos < task.line.length then
    let n := min (task.line.length - task.linePos) count
    ⟨some (BitVec.ofNat 64 n), { task with linePos := task.linePos + n },
      copyOut mem bufPtr ((task.line.drop task.linePos).take n)⟩
  else
    match readLine (task.iflag &&& icrnl != 0) [] w.consoleRead with
    | none => ⟨none, task, mem⟩
    | some .failed => ⟨some (Errno.word .EIo), task, mem⟩
    | some .eof => ⟨some 0, task, mem⟩
    | some (.line bs) =>
      let n := min bs.length count
      ⟨some (BitVec.ofNat 64 n), { task with line := bs, linePos := n },
        copyOut mem bufPtr (bs.take n)⟩

/-- The bytes `console_read_raw` echoes. -/
def echoBytes (bs : List UInt8) : List UInt8 :=
  bs.flatMap fun b => if b = 0x7F ∨ b = 0x08 then [0x08, 0x20, 0x08] else [b]

/-- `console_read_raw`: the first answer with bytes or an error; an echo that does not fit its
buffer panics. -/
def consoleReadRaw (task : TaskStruct) (mem : Mem) (bufPtr : Word) (w : World) :
    Except Panic Outcome :=
  match w.consoleRead.find? fun r => r != some [] with
  | none => .ok ⟨none, task, mem⟩
  | some none => .ok ⟨some (Errno.word .EIo), task, mem⟩
  | some (some bs) =>
    let bs := if task.iflag &&& icrnl ≠ 0 then bs.map fun b => if b = 0x0D then 0x0A else b else bs
    if task.lflag &&& echo ≠ 0 ∧ consoleBuf < (echoBytes bs).length then .error .outOfRange
    else .ok ⟨some (BitVec.ofNat 64 bs.length), task, copyOut mem bufPtr bs⟩

end QuackOS.Linux
