import QuackOS.Lib.Bytes
import QuackOS.Lib.Errno
import QuackOS.Sche.Thread

/-!
# Trap frames and the Linux save area

The model of `arch/aarch64/.../trap/context.rs` and of `LinuxContext` in `kernel/trap/mod.rs`:
the frame an exception entry saves and `trap_return` erets through, and its 34-word copy in the
memory of the user process.  User memory is a function from addresses to bytes; the frames live
on kernel stacks and are not part of it.
-/

namespace QuackOS.Trap

open Bytes Sche

/-- A machine word. -/
abbrev Word := BitVec 64

instance TrapFrame.neZero : NeZero 31 := ⟨by decide⟩

/-- `TrapFrame`, with `x0`..`x30` in `general`. -/
structure TrapFrame where
  trapNum : Word
  elr : Word
  spsr : Word
  sp : Word
  tpidr : Word
  general : Fin 31 → Word

/-- Assign one general register. -/
def TrapFrame.setX (tf : TrapFrame) (i : Fin 31) (w : Word) : TrapFrame :=
  { tf with general := Function.update tf.general i w }

@[simp] theorem TrapFrame.setX_spsr (tf : TrapFrame) (i : Fin 31) (w : Word) :
    (tf.setX i w).spsr = tf.spsr := rfl

/-- `LinuxContext`: the registers, then `elr`, `spsr` and `sp`. -/
structure LinuxContext where
  x : Fin 31 → Word
  elr : Word
  spsr : Word
  sp : Word

/-- The address of word `i` of a save area. -/
def wordAddr (base : Word) (i : Nat) : Word := base + BitVec.ofNat 64 (8 * i)

/-- Read the context from a save area. -/
def LinuxContext.read (m : Mem) (base : Word) : LinuxContext :=
  { x := fun i => readU64 m (wordAddr base i)
    elr := readU64 m (wordAddr base 31)
    spsr := readU64 m (wordAddr base 32)
    sp := readU64 m (wordAddr base 33) }

/-- Write a frame to a save area, word by word in order. -/
def saveContext (m : Mem) (base : Word) (tf : TrapFrame) : Mem :=
  let m := (List.finRange 31).foldl
    (fun m (i : Fin 31) => writeU64 m (wordAddr base i.val) (tf.general i)) m
  let m := writeU64 m (wordAddr base 31) tf.elr
  let m := writeU64 m (wordAddr base 32) tf.spsr
  writeU64 m (wordAddr base 33) tf.sp

/-! ## The fields of SPSR_EL1 -/

/-- The mode bits `M[4:0]`. -/
def modeBits (spsr : Word) : BitVec 5 := spsr.extractLsb' 0 5

/-- AArch64 user mode. -/
def EL0t : BitVec 5 := 0b00000

/-- The exception level, `M[3:2]`. -/
def exceptionLevel (spsr : Word) : BitVec 2 := spsr.extractLsb' 2 2

/-- The interrupt-mask bits `D`, `A`, `I`, `F`. -/
def interruptMask (spsr : Word) : BitVec 4 := spsr.extractLsb' 6 4

@[simp] theorem modeBits_zero : modeBits 0#64 = EL0t := by decide

@[simp] theorem exceptionLevel_zero : exceptionLevel 0#64 = 0#2 := by decide

@[simp] theorem interruptMask_zero : interruptMask 0#64 = 0#4 := by decide

/-- What the return context runs at. -/
def TrapFrame.privilege (tf : TrapFrame) : BitVec 2 × BitVec 4 :=
  (exceptionLevel tf.spsr, interruptMask tf.spsr)

theorem exceptionLevel_of_EL0t {spsr : Word} (h : modeBits spsr = EL0t) :
    exceptionLevel spsr = 0 := by
  refine BitVec.eq_of_getLsbD_eq fun k hk => ?_
  have hbit : (modeBits spsr).getLsbD (2 + k) = false := by
    rw [h]
    simp [EL0t]
  simp only [modeBits, BitVec.getLsbD_extractLsb'] at hbit
  have h5 : 2 + k < 5 := by omega
  simp only [exceptionLevel, BitVec.getLsbD_extractLsb', hk]
  simpa [h5] using hbit

/-! ## The four calls -/

/-- `reflect_linux_syscall` for the thread `current_thread()` resolves to.  `none` is the `wfi`
loop of a thread without a handler or a save area. -/
def reflectLinuxSyscall (th : Option Thread) (tf : TrapFrame) (m : Mem) :
    Option (TrapFrame × Mem) :=
  match th.bind (·.linuxHandlerPc), th.bind (·.linuxSaveArea) with
  | some handlerPc, some saveArea =>
      some ({ tf.setX 0 saveArea with elr := handlerPc, spsr := 0 }, saveContext m saveArea tf)
  | _, _ => none

/-- `sys_linux_syscall_done`: everything but `x0` comes from the save area. -/
def sysLinuxSyscallDone (th : Option Thread) (tf : TrapFrame) (m : Mem) : Option TrapFrame :=
  match th.bind (·.linuxSaveArea) with
  | none => none
  | some saveArea =>
      let ctx := LinuxContext.read m saveArea
      some { tf with
        elr := ctx.elr
        spsr := ctx.spsr
        sp := ctx.sp
        general := Function.update ctx.x 0 (tf.general 0) }

/-- What `sys_clone` is told by the page-table, allocator and thread-table code it calls. -/
structure CloneEnv where
  /-- `create_kernel_mapped_page_table` succeeds. -/
  pageTable : Bool
  /-- `with_page_table_mut`: `none` for an unknown address space, else whether
  `clone_user_mappings` succeeded. -/
  cloneMappings : Option Bool
  /-- The child's copy of the save area is mapped. -/
  savePa : Bool
  /-- `alloc_pages_contig` succeeds. -/
  kernelStack : Bool
  /-- `register_page_table` succeeds. -/
  register : Bool
  /-- The id `create_thread` returns. -/
  childTid : Option (BitVec 32)
  /-- The address given for `CLONE_CHILD_SETTID` is mapped in the child. -/
  childTidMapped : Bool

def cloneChildSettid : Word := 0x01000000
def cloneSettls : Word := 0x00080000

/-- The outcome of `sys_clone`: the caller's frame and memory, and the child's. -/
structure Cloned where
  tf : TrapFrame
  mem : Mem
  child : Option (TrapFrame × Mem)

/-- The trap frame `sys_clone` builds for the child. -/
def childFrame (tf : TrapFrame) (ctx : LinuxContext) : TrapFrame :=
  { trapNum := 0
    elr := ctx.elr
    spsr := ctx.spsr
    sp := if tf.general 1 ≠ 0 then tf.general 1 else ctx.sp
    tpidr := if tf.general 0 &&& cloneSettls ≠ 0 then tf.general 4 else tf.tpidr
    general := Function.update ctx.x 0 0 }

/-- `sys_clone`. -/
def sysClone (env : CloneEnv) (th : Option Thread) (tf : TrapFrame) (m : Mem) : Cloned :=
  let fail (e : ℤ) : Cloned := { tf := tf.setX 0 (errnoWord e), mem := m, child := none }
  match th.bind (·.linuxSaveArea), th.bind (·.linuxHandlerPc) with
  | none, _ => fail einval
  | some _, none => fail einval
  | some saveArea, some _ =>
      let ctx := LinuxContext.read m saveArea
      if !env.pageTable then fail enomem
      else
        match env.cloneMappings with
        | some false => fail enomem
        | none => fail einval
        | some true =>
            if !env.savePa then fail enomem
            else if !env.kernelStack then fail enomem
            else if !env.register then fail enomem
            else
              match env.childTid with
              | none => fail enomem
              | some tid =>
                  let childMem := writeU64 m saveArea 0
                  let childMem :=
                    if tf.general 0 &&& cloneChildSettid ≠ 0 ∧ tf.general 3 ≠ 0 ∧
                        env.childTidMapped = true then
                      writeBytes 4 childMem (tf.general 3) (tid.setWidth 64)
                    else childMem
                  { tf := tf.setX 0 (tid.setWidth 64)
                    mem := if tf.general 2 ≠ 0 then
                      writeBytes 4 m (tf.general 2) (tid.setWidth 64) else m
                    child := some (childFrame tf ctx, childMem) }

/-- What `sys_exec` is told by the code it calls.  What happens after the ELF image has been
copied in may depend on its bytes. -/
structure ExecEnv where
  /-- `create_kernel_mapped_page_table` succeeds. -/
  pageTable : Bool
  libEntry : Word
  libStart : Word
  libEnd : Word
  /-- `load_elf_bytes` succeeds. -/
  loadElf : List (BitVec 8) → Bool
  /-- The BootInfo page of the new table is mapped. -/
  bootPa : List (BitVec 8) → Bool
  /-- The address space and root `register_page_table` returns. -/
  register : List (BitVec 8) → Option (Word × Word)

/-- The frame `sys_exec` starts the new program with. -/
def execFrame (env : ExecEnv) (tf : TrapFrame) : TrapFrame :=
  { tf with
    elr := env.libEntry
    spsr := 0
    sp := tf.general 2
    general := fun _ => 0 }

/-- `sys_exec`: the frame and the thread left behind; `none` is the `wfi` loop that protects
the first address space. -/
def sysExec (env : ExecEnv) (th : Option Thread) (tf : TrapFrame) (m : Mem) :
    Option (TrapFrame × Option Thread) :=
  let fail (e : ℤ) : Option (TrapFrame × Option Thread) :=
    some (tf.setX 0 (errnoWord e), th)
  let elfLen := (tf.general 1).toNat
  if elfLen = 0 ∨ 1024 * 1024 * 16 < elfLen then fail einval
  else if tf.general 2 &&& 0xF ≠ 0 ∨ 0x0000800000000000 ≤ (tf.general 2).toNat then fail einval
  else
    let elfBuf := copyIn m (tf.general 0) elfLen
    if !env.pageTable then fail enomem
    else if env.libEntry = 0 ∨ env.libEnd.toNat ≤ env.libStart.toNat then fail enomem
    else if (th.map (·.asid)).getD 0 = 0x10000 then none
    else if !env.loadElf elfBuf then fail einval
    else if !env.bootPa elfBuf then fail enomem
    else
      match env.register elfBuf with
      | none => fail enomem
      | some (asid, ttbr0) =>
          some (execFrame env tf, th.map fun t =>
            { t with asid, ttbr0, linuxHandlerPc := none, linuxSaveArea := none })

end QuackOS.Trap
