import QuackOS.Linux.Task

/-!
# The descriptor calls of a Linux task

`sys_read` to `sys_pipe2` of `liblinux/src/fs.rs`, as functions from a task and user memory to
an `Outcome`.  The calls that go to the file server take its answer as an argument; `FdCall` is
any one of the calls.
-/

namespace QuackOS.Linux

open Bytes

variable (task : TaskStruct) (mem : Mem)

/-- The call returns this and changes nothing. -/
def Outcome.just (task : TaskStruct) (mem : Mem) (ret : Word) : Outcome := ⟨some ret, task, mem⟩

/-- `sys_write`. -/
def sysWrite (fd : ℕ) (bufPtr : Word) (count : ℕ) (w : World) : Except Panic Outcome :=
  match task.fdTable.get fd with
  | some .console =>
    if fd = 0 then .ok (.just task mem (Errno.word .EBADF))
    else if w.consoleWrite < 0 then .ok (.just task mem (Errno.word .EIo))
    else .ok (.just task mem (BitVec.ofInt 64 w.consoleWrite))
  | some (.file _) =>
    match w.fsWrite with
    | .ok n => .ok (.just task mem (BitVec.ofNat 64 n))
    | .error e => .ok (.just task mem (errnoWord e))
  | some (.pipeWrite idx) => pipeWrite task mem idx bufPtr count
  | _ => .ok (.just task mem (Errno.word .EBADF))

/-- `sys_read`. -/
def sysRead (fd : ℕ) (bufPtr : Word) (count : ℕ) (w : World) : Except Panic Outcome :=
  match task.fdTable.get fd with
  | some .console =>
    if count = 0 then .ok (.just task mem 0)
    else if task.lflag &&& icanon ≠ 0 then .ok (consoleReadCanonical task mem bufPtr count w)
    else consoleReadRaw task mem bufPtr w
  | some (.file _) =>
    match w.fsRead with
    | .ok bs => .ok ⟨some (BitVec.ofNat 64 bs.length), task, copyOut mem bufPtr bs⟩
    | .error e => .ok (.just task mem (errnoWord e))
  | some (.pipeRead idx) => pipeRead task mem idx bufPtr count
  | _ => .ok (.just task mem (Errno.word .EBADF))

/-- The end of a pipe that `sys_close` lets go of. -/
inductive PipeEnd
  | read | write

/-- `pipe.readers -= 1` or `pipe.writers -= 1`. -/
def Pipe.drop (p : Pipe) : PipeEnd → Except Panic Pipe
  | .read => if p.readers = 0 then .error .underflow else .ok { p with readers := p.readers - 1 }
  | .write => if p.writers = 0 then .error .underflow else .ok { p with writers := p.writers - 1 }

/-- The branch of `sys_close` for an end of a pipe: a pipe without ends is gone. -/
def closePipe (idx : ℕ) (e : PipeEnd) : Except Panic TaskStruct := do
  match ← task.pipe idx with
  | none => return task
  | some pipe =>
    let pipe ← pipe.drop e
    return task.setPipe idx (if pipe.readers = 0 ∧ pipe.writers = 0 then none else some pipe)

/-- `sys_close`, with the file identifier it closes on the server. -/
def sysClose (fd : ℕ) : Except Panic (Outcome × Option FsFid) := do
  let (old, table) := task.fdTable.closeKind fd
  let task := { task with fdTable := table }
  match old with
  | some .console => return (.just task mem 0, none)
  | some (.file fid) => return (.just task mem 0, some fid)
  | some (.pipeRead idx) => return (.just (← closePipe task idx .read) mem 0, none)
  | some (.pipeWrite idx) => return (.just (← closePipe task idx .write) mem 0, none)
  | _ => return (.just task mem (Errno.word .EBADF), none)

/-- `sys_openat` after the server answered `fs_open`, with the file identifier it closes
again. -/
def sysOpenat (flags : Word) (opened : Except ℤ FsFid) : Outcome × Option FsFid :=
  match opened with
  | .error e => (.just task mem (errnoWord e), none)
  | .ok fid =>
    match task.fdTable.allocFile fid (flags.setWidth 32) with
    | some (fd, table) =>
      (.just { task with fdTable := table } mem (BitVec.ofNat 64 fd), none)
    | none => (.just task mem (Errno.word .EMFILE), some fid)

/-- `sys_dup`. -/
def sysDup (oldfd : ℕ) : Outcome :=
  match task.fdTable.get oldfd with
  | none => .just task mem (Errno.word .EBADF)
  | some kind =>
    match task.fdTable.allocKind kind 0 with
    | some (fd, table) => .just { task with fdTable := table } mem (BitVec.ofNat 64 fd)
    | none => .just task mem (Errno.word .EMFILE)

/-- `sys_dup3`: the new entry goes to the lowest free descriptor. -/
def sysDup3 (oldfd newfd : ℕ) : Outcome :=
  if oldfd = newfd then .just task mem (Errno.word .EINVAL)
  else
    match task.fdTable.get oldfd with
    | none => .just task mem (Errno.word .EBADF)
    | some kind =>
      let table := (task.fdTable.close newfd).2
      let table := ((table.allocKind kind 0).map Prod.snd).getD table
      .just { task with fdTable := table } mem (BitVec.ofNat 64 newfd)

/-- What `F_DUPFD` puts into the new entry: anything but a file becomes the console. -/
def dupfdKind (t : FdTable) (fd : ℕ) : FdKind :=
  match t.getFid fd with
  | some fid => .file fid
  | none => .console

/-- `sys_fcntl`. -/
def sysFcntl (fd cmd arg : ℕ) : Outcome :=
  if cmd = 0 then
    match task.fdTable.get fd with
    | none => .just task mem (Errno.word .EBADF)
    | some _ =>
      match (List.range' arg (256 - arg)).find? fun newfd => (task.fdTable.get newfd).isNone with
      | none => .just task mem (Errno.word .EMFILE)
      | some newfd =>
        let table := ((task.fdTable.allocKind (dupfdKind task.fdTable fd) 0).map Prod.snd).getD
          task.fdTable
        .just { task with fdTable := table } mem (BitVec.ofNat 64 newfd)
  else if cmd = 1 ∨ cmd = 2 ∨ cmd = 4 then .just task mem 0
  else if cmd = 3 then
    .just task mem (if (task.fdTable.get fd).isSome then 0 else Errno.word .EBADF)
  else .just task mem (Errno.word .EINVAL)

/-- `sys_pipe2`. -/
def sysPipe2 (fdsPtr : Word) : Outcome :=
  match Slots.firstFree maxPipes task.pipes with
  | none => .just task mem (Errno.word .EMFILE)
  | some idx =>
    let made := task.setPipe idx (some Pipe.new)
    match made.fdTable.allocKind (.pipeRead idx) 0 with
    | none => .just (made.setPipe idx none) mem (Errno.word .EMFILE)
    | some (readFd, table) =>
      match table.allocKind (.pipeWrite idx) 0 with
      | none =>
        .just ({ made with fdTable := (table.close readFd).2 }.setPipe idx none) mem
          (Errno.word .EMFILE)
      | some (writeFd, table) =>
        let mem := writeBytes 4 mem fdsPtr (BitVec.ofNat 64 readFd)
        let mem := writeBytes 4 mem (fdsPtr + 4) (BitVec.ofNat 64 writeFd)
        .just { made with fdTable := table } mem 0

/-- A call on descriptors, with what the world answers. -/
inductive FdCall
  | read (fd : ℕ) (bufPtr : Word) (count : ℕ) (w : World)
  | write (fd : ℕ) (bufPtr : Word) (count : ℕ) (w : World)
  | openat (flags : Word) (opened : Except ℤ FsFid)
  | close (fd : ℕ)
  | dup (oldfd : ℕ)
  | dup3 (oldfd newfd : ℕ)
  | fcntl (fd cmd arg : ℕ)
  | pipe2 (fdsPtr : Word)

/-- What a call does, with the file identifier it closes on the server. -/
def FdCall.run : FdCall → Except Panic (Outcome × Option FsFid)
  | .read fd bufPtr count w => (sysRead task mem fd bufPtr count w).map fun o => (o, none)
  | .write fd bufPtr count w => (sysWrite task mem fd bufPtr count w).map fun o => (o, none)
  | .openat flags opened => .ok (sysOpenat task mem flags opened)
  | .close fd => sysClose task mem fd
  | .dup oldfd => .ok (sysDup task mem oldfd, none)
  | .dup3 oldfd newfd => .ok (sysDup3 task mem oldfd newfd, none)
  | .fcntl fd cmd arg => .ok (sysFcntl task mem fd cmd arg, none)
  | .pipe2 fdsPtr => .ok (sysPipe2 task mem fdsPtr, none)

end QuackOS.Linux
