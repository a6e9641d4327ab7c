import QuackOS.Trap.Context

/-!
# Privilege of the returned context

Between reflection and completion the saved context lives in memory the process can write.
`sys_linux_syscall_done` and `sys_clone` take the whole `spsr` word from there, so that word
decides the exception level and the interrupt masks of the frame the kernel erets through.

* `done_to_kernel` — a process that returns to EL1;
* `keepsPrivilege_iff` — the calls whose return context does not depend on user memory.
-/

namespace QuackOS.Trap

open Bytes Sche

/-- The four calls, each with what its environment answers. -/
inductive TrapCall
  | reflect
  | done
  | clone (env : CloneEnv)
  | exec (env : ExecEnv)

/-- The frames the kernel will eret through after a call: the caller's, and the child's for a
successful clone.  A call that never returns has none. -/
def TrapCall.frames (c : TrapCall) (th : Option Thread) (tf : TrapFrame) (m : Mem) :
    List TrapFrame :=
  match c with
  | .reflect => ((reflectLinuxSyscall th tf m).map (·.1)).toList
  | .done => (sysLinuxSyscallDone th tf m).toList
  | .clone env =>
      let r := sysClone env th tf m
      r.tf :: (r.child.map (·.1)).toList
  | .exec env => ((sysExec env th tf m).map (·.1)).toList

/-- The call leaves user frames only, and no content of user memory would have changed the
exception level or the interrupt masks they return with. -/
def KeepsPrivilege (c : TrapCall) (th : Option Thread) (tf : TrapFrame) (m : Mem) : Prop :=
  (∀ f ∈ c.frames th tf m, modeBits f.spsr = EL0t) ∧
    ∀ m', (c.frames th tf m').map TrapFrame.privilege = (c.frames th tf m).map TrapFrame.privilege

/-- Every step of `sys_clone` that can fail succeeds. -/
def CloneEnv.succeeds (env : CloneEnv) : Bool :=
  env.pageTable && env.cloneMappings == some true && env.savePa && env.kernelStack &&
    env.register && env.childTid.isSome

/-- The save area a call reads a return context from. -/
def TrapCall.savedContext (c : TrapCall) (th : Option Thread) : Option Word :=
  match c with
  | .done => th.bind (·.linuxSaveArea)
  | .clone env =>
      if env.succeeds && (th.bind (·.linuxHandlerPc)).isSome then th.bind (·.linuxSaveArea)
      else none
  | _ => none

/-- `sys_exec` gets as far as loading the ELF image. -/
def ExecEnv.reachesLoad (env : ExecEnv) (th : Option Thread) (tf : TrapFrame) : Prop :=
  ¬ ((tf.general 1).toNat = 0 ∨ 1024 * 1024 * 16 < (tf.general 1).toNat) ∧
  ¬ (tf.general 2 &&& 0xF ≠ 0 ∨ 0x0000800000000000 ≤ (tf.general 2).toNat) ∧
  env.pageTable = true ∧ ¬ (env.libEntry = 0 ∨ env.libEnd.toNat ≤ env.libStart.toNat) ∧
  (th.map (·.asid)).getD 0 ≠ 0x10000

/-- Whether an image is accepted. -/
def ExecEnv.accepts (env : ExecEnv) (elf : List (BitVec 8)) : Bool :=
  env.loadElf elf && env.bootPa elf && (env.register elf).isSome

/-- The return context of the call does not come from user memory: no save area is read back,
and for `sys_exec` the caller's interrupt masks are clear or acceptance does not depend on the
image. -/
def MemoryBlind (c : TrapCall) (th : Option Thread) (tf : TrapFrame) : Prop :=
  c.savedContext th = none ∧
    ∀ env, c = .exec env → env.reachesLoad th tf → interruptMask tf.spsr = 0 ∨
      ∀ m m', env.accepts (copyIn m (tf.general 0) (tf.general 1).toNat) =
        env.accepts (copyIn m' (tf.general 0) (tf.general 1).toNat)

/-! ## What each call returns with -/

theorem frames_done (th : Option Thread) (tf : TrapFrame) (m : Mem) :
    (TrapCall.done.frames th tf m).map (·.spsr) =
      match th.bind (·.linuxSaveArea) with
      | none => []
      | some a => [readU64 m (wordAddr a 32)] := by
  simp only [TrapCall.frames, sysLinuxSyscallDone]
  cases th.bind (·.linuxSaveArea) <;> rfl

theorem frames_reflect (th : Option Thread) (tf : TrapFrame) (m : Mem) :
    (TrapCall.reflect.frames th tf m).map (·.spsr) =
      if (th.bind (·.linuxHandlerPc)).isSome && (th.bind (·.linuxSaveArea)).isSome then [0]
      else [] := by
  simp only [TrapCall.frames, reflectLinuxSyscall]
  cases th.bind (·.linuxHandlerPc) <;> cases th.bind (·.linuxSaveArea) <;> rfl

/-- The caller's own frame keeps its `spsr`; the child's comes from the save area. -/
theorem frames_clone (env : CloneEnv) (th : Option Thread) (tf : TrapFrame) (m : Mem) :
    ((TrapCall.clone env).frames th tf m).map (·.spsr) = tf.spsr ::
      match (TrapCall.clone env).savedContext th with
      | none => []
      | some a => [readU64 m (wordAddr a 32)] := by
  unfold TrapCall.frames sysClone TrapCall.savedContext CloneEnv.succeeds
  rcases Option.eq_none_or_eq_some (th.bind (·.linuxSaveArea)) with hsave | ⟨a, hsave⟩
  · simp [hsave]
  rcases Option.eq_none_or_eq_some (th.bind (·.linuxHandlerPc)) with hpc | ⟨pc, hpc⟩
  · simp [hsave, hpc]
  by_cases hpt : env.pageTable = true
  · rcases Option.eq_none_or_eq_some env.cloneMappings with hmap | ⟨ok, hmap⟩
    · simp [hsave, hpc, hpt, hmap]
    · cases ok with
      | false => simp [hsave, hpc, hpt, hmap]
      | true =>
        by_cases hrest : env.savePa = true ∧ env.kernelStack = true ∧ env.register = true
        · obtain ⟨h1, h2, h3⟩ := hrest
          rcases Option.eq_none_or_eq_some env.childTid with htid | ⟨tid, htid⟩
          · simp [hsave, hpc, hpt, hmap, h1, h2, h3, htid]
          · simp [hsave, hpc, hpt, hmap, h1, h2, h3, htid, childFrame, LinuxContext.read]
        · by_cases h1 : env.savePa = true
          · by_cases h2 : env.kernelStack = true
            · have h3 : ¬ env.register = true := fun h3 => hrest ⟨h1, h2, h3⟩
              simp [hsave, hpc, hpt, hmap, h1, h2, h3]
            · simp [hsave, hpc, hpt, hmap, h1, h2]
          · simp [hsave, hpc, hpt, hmap, h1]
  · simp [hsave, hpc, hpt]

/-- `sys_exec` returns with `spsr = 0` when it accepts the image and with the caller's own
`spsr` when it fails. -/
theorem frames_exec (env : ExecEnv) (th : Option Thread) (tf : TrapFrame) (m : Mem)
    (h : env.reachesLoad th tf) :
    ((TrapCall.exec env).frames th tf m).map (·.spsr) =
      [if env.accepts (copyIn m (tf.general 0) (tf.general 1).toNat) then 0 else tf.spsr] := by
  obtain ⟨hlen, hstack, hpt, hlib, hasid⟩ := h
  simp only [TrapCall.frames, sysExec, if_neg hlen, if_neg hstack, hpt, Bool.not_true,
    Bool.false_eq_true, if_false, if_neg hlib, if_neg hasid, ExecEnv.accepts]
  generalize copyIn m (tf.general 0) (tf.general 1).toNat = elf
  by_cases hload : env.loadElf elf = true
  · by_cases hboot : env.bootPa elf = true
    · rcases Option.eq_none_or_eq_some (env.register elf) with hreg | ⟨r, hreg⟩
      · simp [hload, hboot, hreg]
      · simp [hload, hboot, hreg, execFrame]
    · simp [hload, hboot]
  · simp [hload]

/-- A `sys_exec` that fails before loading does not look at the image. -/
theorem frames_exec_early (env : ExecEnv) (th : Option Thread) (tf : TrapFrame)
    (h : ¬ env.reachesLoad th tf) (m : Mem) :
    ((TrapCall.exec env).frames th tf m).map (·.spsr) = [tf.spsr] ∨
      ∀ m', (TrapCall.exec env).frames th tf m' = [] := by
  simp only [TrapCall.frames, sysExec]
  by_cases hlen : (tf.general 1).toNat = 0 ∨ 1024 * 1024 * 16 < (tf.general 1).toNat
  · exact Or.inl (by simp [hlen])
  by_cases hstack : tf.general 2 &&& 0xF ≠ 0 ∨ 0x0000800000000000 ≤ (tf.general 2).toNat
  · exact Or.inl (by simp only [if_neg hlen, if_pos hstack]; rfl)
  by_cases hpt : env.pageTable = true
  · by_cases hlib : env.libEntry = 0 ∨ env.libEnd.toNat ≤ env.libStart.toNat
    · exact Or.inl (by simp only [if_neg hlen, if_neg hstack, hpt, if_pos hlib]; rfl)
    · by_cases hasid : (th.map (·.asid)).getD 0 = 0x10000
      · right
        intro m'
        simp only [if_neg hlen, if_neg hstack, hpt, if_neg hlib, if_pos hasid]
        rfl
      · exact absurd ⟨hlen, hstack, hpt, hlib, hasid⟩ h
  · exact Or.inl (by simp only [if_neg hlen, if_neg hstack, hpt]; rfl)

/-! ## The law, and where it fails -/

/-- Some content of user memory puts other interrupt masks into a word. -/
theorem exists_mask_ne (m : Mem) (a w : Word) :
    ∃ m', interruptMask (readU64 m' a) ≠ interruptMask w := by
  by_cases hw : interruptMask w = 0
  · refine ⟨writeU64 m a 0x80, ?_⟩
    rw [readU64_writeU64, hw]
    decide
  · refine ⟨writeU64 m a 0, ?_⟩
    rw [readU64_writeU64]
    exact fun h => hw (h.symm.trans (by decide))

/-- The law looks at the `spsr` words of the frames only. -/
theorem keepsPrivilege_iff_spsr {c : TrapCall} {th : Option Thread} {tf : TrapFrame} {m : Mem} :
    KeepsPrivilege c th tf m ↔
      (∀ w ∈ (c.frames th tf m).map (·.spsr), modeBits w = EL0t) ∧
        ∀ m', ((c.frames th tf m').map (·.spsr)).map (fun w => (exceptionLevel w, interruptMask w)) =
          ((c.frames th tf m).map (·.spsr)).map fun w => (exceptionLevel w, interruptMask w) := by
  simp only [KeepsPrivilege, List.mem_map, forall_exists_index, and_imp,
    forall_apply_eq_imp_iff₂, List.map_map]
  rfl

/-- User memory with `0x5` (EL1h) in word 32 of a save area at `0x1000`. -/
def kernelModeMem : Mem := writeU64 (fun _ => 0) 0x1100 0x5

/-- A thread that registered that save area. -/
def linuxThread : Thread :=
  { Thread.new ⟨1, 1⟩ 128 0 0 with linuxHandlerPc := some 0x4000, linuxSaveArea := some 0x1000 }

/-- A frame that entered from EL0. -/
def userFrame : TrapFrame :=
  { trapNum := 0, elr := 0x2000, spsr := 0, sp := 0x8000, tpidr := 0, general := fun _ => 0 }

/-- **A process returns to EL1.**  `sys_linux_syscall_done` leaves a frame the kernel erets
through in kernel mode. -/
theorem done_to_kernel : modeBits userFrame.spsr = EL0t ∧
    ¬ KeepsPrivilege .done (some linuxThread) userFrame kernelModeMem := by
  refine ⟨by decide, fun h => ?_⟩
  have hmode := (keepsPrivilege_iff_spsr.mp h).1
  rw [frames_done] at hmode
  exact absurd (hmode _ (List.mem_singleton.mpr rfl)) (by decide)

/-- A context read back from a save area lets user memory choose the interrupt masks. -/
theorem not_keepsPrivilege_of_saved {c : TrapCall} {th : Option Thread} {tf : TrapFrame}
    (pre : List Word) (a : Word)
    (hspsr : ∀ m, (c.frames th tf m).map (·.spsr) = pre ++ [readU64 m (wordAddr a 32)]) (m : Mem) :
    ¬ KeepsPrivilege c th tf m := by
  intro h
  obtain ⟨m', hne⟩ := exists_mask_ne m (wordAddr a 32) (readU64 m (wordAddr a 32))
  have hsame := (keepsPrivilege_iff_spsr.mp h).2 m'
  rw [hspsr m, hspsr m', List.map_append, List.map_append, List.append_cancel_left_eq] at hsame
  simp only [List.map_cons, List.map_nil, List.cons.injEq, Prod.mk.injEq, and_true] at hsame
  exact hne hsame.2

/-- A call whose frames do not depend on memory keeps the privilege if they are user frames. -/
theorem keepsPrivilege_of_const {c : TrapCall} {th : Option Thread} {tf : TrapFrame}
    (ws : List Word) (hspsr : ∀ m, (c.frames th tf m).map (·.spsr) = ws)
    (hws : ∀ w ∈ ws, modeBits w = EL0t) (m : Mem) : KeepsPrivilege c th tf m := by
  refine keepsPrivilege_iff_spsr.mpr ⟨?_, fun m' => ?_⟩
  · rw [hspsr]
    exact hws
  · rw [hspsr, hspsr]

/-- For `sys_exec` past its checks, the law says that acceptance of the image cannot change the
masks. -/
theorem keepsPrivilege_exec {env : ExecEnv} {th : Option Thread} {tf : TrapFrame}
    (htf : modeBits tf.spsr = EL0t) (hload : env.reachesLoad th tf) (m : Mem) :
    KeepsPrivilege (.exec env) th tf m ↔ interruptMask tf.spsr = 0 ∨
      ∀ m m', env.accepts (copyIn m (tf.general 0) (tf.general 1).toNat) =
        env.accepts (copyIn m' (tf.general 0) (tf.general 1).toNat) := by
  have hel : exceptionLevel tf.spsr = 0 := exceptionLevel_of_EL0t htf
  rw [keepsPrivilege_iff_spsr]
  simp only [frames_exec env th tf _ hload, List.mem_singleton, forall_eq, List.map_cons,
    List.map_nil, List.cons.injEq, Prod.mk.injEq, and_true]
  constructor
  · rintro ⟨-, hsame⟩
    by_contra hcon
    rw [not_or] at hcon
    obtain ⟨hmask, hdiff⟩ := hcon
    -- both outcomes occur, with different masks
    refine hdiff fun m₁ m₂ => ?_
    have h₁ := (hsame m₁).2
    have h₂ := (hsame m₂).2
    have h := h₁.trans h₂.symm
    split_ifs at h with ha hb hb
    · rw [ha, hb]
    · exact absurd (h.symm.trans interruptMask_zero) hmask
    · exact absurd (h.trans interruptMask_zero) hmask
    · rw [Bool.not_eq_true] at ha hb
      rw [ha, hb]
  · intro hcond
    refine ⟨?_, fun m' => ⟨?_, ?_⟩⟩
    · split
      · exact modeBits_zero
      · exact htf
    · split <;> split <;> simp [hel]
    · rcases hcond with hmask | hconst
      · split <;> split <;> simp [hmask]
      · rw [hconst m' m]

/-- **No syscall raises its caller's privilege, except through the save area.**  For every
thread, every frame that entered from EL0 and every content of user memory, a call keeps the
privilege exactly when its return context does not come from user memory. -/
theorem keepsPrivilege_iff (c : TrapCall) (th : Option Thread) (tf : TrapFrame) (m : Mem)
    (htf : modeBits tf.spsr = EL0t) : KeepsPrivilege c th tf m ↔ MemoryBlind c th tf := by
  unfold MemoryBlind
  cases c with
  | reflect =>
    simp only [TrapCall.savedContext, reduceCtorEq, false_implies, implies_true, and_self, iff_true]
    refine keepsPrivilege_of_const _ (frames_reflect th tf) ?_ m
    split <;> simp
  | done =>
    simp only [TrapCall.savedContext, reduceCtorEq, false_implies, implies_true, and_true]
    cases ha : th.bind (·.linuxSaveArea) with
    | none =>
      simp only [iff_true]
      refine keepsPrivilege_of_const [] (fun m => ?_) (fun w hw => absurd hw List.not_mem_nil) m
      rw [frames_done, ha]
    | some a =>
      simp only [reduceCtorEq, iff_false]
      refine not_keepsPrivilege_of_saved [] a (fun m => ?_) m
      rw [frames_done, ha]
      rfl
  | clone env =>
    simp only [reduceCtorEq, false_implies, implies_true, and_true]
    cases ha : (TrapCall.clone env).savedContext th with
    | none =>
      simp only [iff_true]
      refine keepsPrivilege_of_const [tf.spsr] (fun m => ?_) (fun w hw => ?_) m
      · rw [frames_clone, ha]
      · rw [List.mem_singleton.mp hw, htf]
    | some a =>
      simp only [reduceCtorEq, iff_false]
      refine not_keepsPrivilege_of_saved [tf.spsr] a (fun m => ?_) m
      rw [frames_clone, ha]
      rfl
  | exec env =>
    simp only [TrapCall.savedContext, TrapCall.exec.injEq, forall_eq', true_and]
    by_cases hload : env.reachesLoad th tf
    · rw [keepsPrivilege_exec htf hload m]
      simp [hload]
    · simp only [hload, false_implies, iff_true]
      by_cases hnil : ∀ m', (TrapCall.exec env).frames th tf m' = []
      · refine keepsPrivilege_of_const [] (fun m => ?_) (fun w hw => absurd hw List.not_mem_nil) m
        rw [hnil m]
        rfl
      · refine keepsPrivilege_of_const [tf.spsr] (fun m => ?_) (fun w hw => ?_) m
        · exact (frames_exec_early env th tf hload m).resolve_right hnil
        · rw [List.mem_singleton.mp hw, htf]

theorem keepsPrivilege_iff_reflect : modeBits userFrame.spsr = EL0t ∧
    (KeepsPrivilege .reflect (some linuxThread) userFrame kernelModeMem ↔
      MemoryBlind .reflect (some linuxThread) userFrame) :=
  ⟨by decide, keepsPrivilege_iff .reflect (some linuxThread) userFrame kernelModeMem (by decide)⟩

end QuackOS.Trap
