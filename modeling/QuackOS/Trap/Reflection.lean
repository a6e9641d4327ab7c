import QuackOS.Trap.Context
import Mathlib.Data.List.FinRange

/-!
# Reflection is transparent

`reflect_linux_syscall` writes the frame to the save area as 34 words, one after the other, and
`sys_linux_syscall_done` reads the area back as a `LinuxContext`.

* `saveContext_word` — each of the 34 words is found where it was put;
* `read_saveContext` — the context read back is the frame that was saved;
* `done_reflect` — **the two calls together give back the frame, with the result in `x0`.**
-/

namespace QuackOS.Trap

open Bytes Sche

section SaveArea

variable {m m' : Mem} {base w : Word} {tf : TrapFrame} {i j : ℕ}

/-- The words of a save area do not overlap. -/
theorem wordAddr_disjoint (hi : i < 34) (hj : j < 34) (hne : i ≠ j) {k : ℕ} (hk : k < 8) :
    8 ≤ (wordAddr base j + BitVec.ofNat 64 k - wordAddr base i).toNat := by
  have hsub : wordAddr base j + BitVec.ofNat 64 k - wordAddr base i =
      BitVec.ofNat 64 (8 * j + k) - BitVec.ofNat 64 (8 * i) := by
    simp only [wordAddr, BitVec.ofNat_add]
    grind
  rw [hsub, BitVec.toNat_sub, BitVec.toNat_ofNat, BitVec.toNat_ofNat]
  omega

theorem readWord_writeWord_of_ne (hi : i < 34) (hj : j < 34) (hne : i ≠ j) :
    readU64 (writeU64 m (wordAddr base i) w) (wordAddr base j) = readU64 m (wordAddr base j) :=
  readU64_writeU64_of_ne _ _ _ _ fun _ hk => wordAddr_disjoint hi hj hne hk

/-- Words that a list of registers is written to are not the other words. -/
theorem readWord_foldl_of_notMem {l : List (Fin 31)} (hj : j < 34) (hl : ∀ i ∈ l, i.val ≠ j) :
    readU64 (l.foldl (fun m (i : Fin 31) => writeU64 m (wordAddr base i.val) (tf.general i)) m)
      (wordAddr base j) = readU64 m (wordAddr base j) := by
  induction l generalizing m with
  | nil => rfl
  | cons i l ih =>
    have hi : i.val < 34 := by omega
    have hne : i.val ≠ j := hl i (List.mem_cons_self ..)
    rw [List.foldl_cons, ih fun a ha => hl a (List.mem_cons_of_mem i ha)]
    exact readWord_writeWord_of_ne hi hj hne

/-- The registers of a list without repetitions are each found in their word. -/
theorem readWord_foldl_of_mem {l : List (Fin 31)} (hnd : l.Nodup) {r : Fin 31} (hr : r ∈ l) :
    readU64 (l.foldl (fun m (i : Fin 31) => writeU64 m (wordAddr base i.val) (tf.general i)) m)
      (wordAddr base r.val) = tf.general r := by
  induction l generalizing m with
  | nil => cases hr
  | cons i l ih =>
    rw [List.foldl_cons]
    rcases List.mem_cons.mp hr with rfl | hmem
    · have hl : ∀ a ∈ l, a.val ≠ r.val := by
        intro a ha hval
        exact (List.nodup_cons.mp hnd).1 (Fin.ext hval ▸ ha)
      rw [readWord_foldl_of_notMem (by omega) hl, readU64_writeU64]
    · exact ih (List.nodup_cons.mp hnd).2 hmem

/-- **Each word of the save area holds its register.** -/
theorem saveContext_word :
    (∀ r : Fin 31, readU64 (saveContext m base tf) (wordAddr base r.val) = tf.general r) ∧
      readU64 (saveContext m base tf) (wordAddr base 31) = tf.elr ∧
      readU64 (saveContext m base tf) (wordAddr base 32) = tf.spsr ∧
      readU64 (saveContext m base tf) (wordAddr base 33) = tf.sp := by
  simp only [saveContext]
  refine ⟨fun r => ?_, ?_, ?_, ?_⟩
  · rw [readWord_writeWord_of_ne (by omega) (by omega) (by omega),
      readWord_writeWord_of_ne (by omega) (by omega) (by omega),
      readWord_writeWord_of_ne (by omega) (by omega) (by omega)]
    exact readWord_foldl_of_mem (List.nodup_finRange 31) (List.mem_finRange r)
  · rw [readWord_writeWord_of_ne (by omega) (by omega) (by omega),
      readWord_writeWord_of_ne (by omega) (by omega) (by omega), readU64_writeU64]
  · rw [readWord_writeWord_of_ne (by omega) (by omega) (by omega), readU64_writeU64]
  · rw [readU64_writeU64]

/-- A context is read from the 272 bytes of the save area. -/
theorem LinuxContext.read_congr
    (h : ∀ k < 272, m' (base + BitVec.ofNat 64 k) = m (base + BitVec.ofNat 64 k)) :
    LinuxContext.read m' base = LinuxContext.read m base := by
  have hword : ∀ i < 34, readU64 m' (wordAddr base i) = readU64 m (wordAddr base i) := by
    intro i hi
    refine readU64_congr fun k hk => ?_
    have haddr : wordAddr base i + BitVec.ofNat 64 k = base + BitVec.ofNat 64 (8 * i + k) := by
      rw [wordAddr, BitVec.add_assoc, BitVec.ofNat_add]
    rw [haddr]
    exact h _ (by omega)
  simp only [LinuxContext.read, hword 31 (by omega), hword 32 (by omega), hword 33 (by omega)]
  congr 1
  funext r
  exact hword r.val (by omega)

/-- The context read back is the frame that was saved. -/
theorem read_saveContext : LinuxContext.read (saveContext m base tf) base =
    { x := tf.general, elr := tf.elr, spsr := tf.spsr, sp := tf.sp } := by
  obtain ⟨hx, helr, hspsr, hsp⟩ := @saveContext_word m base tf
  simp only [LinuxContext.read, helr, hspsr, hsp]
  congr 1
  funext r
  exact hx r

end SaveArea

/-- **Reflection is transparent.**  The call is reflected; and when it is completed in any frame
`tf'`, with the save area as reflection left it and the rest of memory and of the thread changed
in any way, the result is the frame that trapped with `x0` from `tf'`. -/
theorem done_reflect (th : Thread) (pc base : Word) (hpc : th.linuxHandlerPc = some pc)
    (hbase : th.linuxSaveArea = some base) (tf : TrapFrame) (m : Mem) :
    ∃ tf₁ m₁, reflectLinuxSyscall (some th) tf m = some (tf₁, m₁) ∧
      ∀ (th' : Thread) (tf' : TrapFrame) (m' : Mem), th'.linuxSaveArea = some base →
        (∀ k < 272, m' (base + BitVec.ofNat 64 k) = m₁ (base + BitVec.ofNat 64 k)) →
        ∃ r, sysLinuxSyscallDone (some th') tf' m' = some r ∧ r.general 0 = tf'.general 0 ∧
          (∀ i, i ≠ 0 → r.general i = tf.general i) ∧ r.elr = tf.elr ∧ r.spsr = tf.spsr ∧
          r.sp = tf.sp := by
  refine ⟨{ tf.setX 0 base with elr := pc, spsr := 0 }, saveContext m base tf, ?_, ?_⟩
  · simp only [reflectLinuxSyscall, Option.bind_some, hpc, hbase]
  · intro th' tf' m' hsave hsame
    have hctx : LinuxContext.read m' base =
        { x := tf.general, elr := tf.elr, spsr := tf.spsr, sp := tf.sp } :=
      (LinuxContext.read_congr hsame).trans read_saveContext
    simp only [sysLinuxSyscallDone, Option.bind_some, hsave, hctx]
    refine ⟨_, rfl, ?_, ?_, rfl, rfl, rfl⟩
    · show Function.update tf.general 0 (tf'.general 0) 0 = tf'.general 0
      exact Function.update_self ..
    · intro i hi
      show Function.update tf.general 0 (tf'.general 0) i = tf.general i
      exact Function.update_of_ne hi ..

/-- A thread with a handler and a save area, whose frame trapped with the stack at `0x8000`. -/
theorem done_reflect_frame : ∃ tf₁ m₁,
    reflectLinuxSyscall (some { Thread.new ⟨1, 1⟩ 128 0 0 with
      linuxHandlerPc := some 0x4000, linuxSaveArea := some 0x1000 })
      ⟨0, 0x2000, 0, 0x8000, 0, fun i => BitVec.ofNat 64 i.val⟩ (fun _ => 0) = some (tf₁, m₁) ∧
    ∃ r, sysLinuxSyscallDone (some { Thread.new ⟨1, 1⟩ 128 0 0 with
      linuxHandlerPc := some 0x4000, linuxSaveArea := some 0x1000 })
      ⟨0, 0, 0, 0, 0, fun _ => 5⟩ m₁ = some r ∧ r.general 0 = 5 ∧ r.general 8 = 8 ∧
      r.sp = 0x8000 := by
  obtain ⟨tf₁, m₁, h, hdone⟩ := done_reflect
    { Thread.new ⟨1, 1⟩ 128 0 0 with linuxHandlerPc := some 0x4000, linuxSaveArea := some 0x1000 }
    0x4000 0x1000 rfl rfl ⟨0, 0x2000, 0, 0x8000, 0, fun i => BitVec.ofNat 64 i.val⟩ (fun _ => 0)
  obtain ⟨r, hr, h0, hx, -, -, hsp⟩ := hdone
    { Thread.new ⟨1, 1⟩ 128 0 0 with linuxHandlerPc := some 0x4000, linuxSaveArea := some 0x1000 }
    ⟨0, 0, 0, 0, 0, fun _ => 5⟩ m₁ rfl (fun _ _ => rfl)
  exact ⟨tf₁, m₁, h, r, hr, h0, hx 8 (by decide), hsp⟩

end QuackOS.Trap
