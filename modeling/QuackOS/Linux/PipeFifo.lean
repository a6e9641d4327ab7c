import QuackOS.Linux.Writev

/-!
# A pipe is a bounded queue

`pipe_write` and `pipe_read` on a pipe with open ends, one call after the other, against the whole
history of what was put in and what came out.

* `Pipe.takeMany_spec` — bytes come out of the front, as `Pipe.putMany_spec` has them go in behind;
* `PipeHistory.Inv` — what went in is what came out, followed by what is in the ring;
* `pipe_fifo` — every run of calls keeps the order and the count, and every further call does as
  much as there is room or there are bytes for.
-/

namespace QuackOS.Linux

open Bytes

/-! ## Taking bytes out -/

section Ring

variable {p p' : Pipe} {b : UInt8} {bs : List UInt8} {n : ℕ}

/-- The byte that comes out was the oldest. -/
theorem Pipe.take_contents (h : p.take = .ok (b, p')) :
    p.contents = b :: p'.contents ∧ p'.byteCount + 1 = p.byteCount ∧ (p.Aligned → p'.Aligned) := by
  rw [Pipe.take] at h
  split at h
  · cases h
  · rename_i hread
    split at h
    · cases h
    · rename_i hcount
      cases h
      obtain ⟨m, hm⟩ := Nat.exists_eq_succ_of_ne_zero hcount
      refine ⟨?_, ?_, fun ha => ?_⟩
      · rw [Pipe.contents, Pipe.contents, hm, List.range_succ_eq_map, List.map_cons, List.map_map,
          Nat.add_zero, Nat.mod_eq_of_lt (Nat.lt_of_not_le hread)]
        refine congrArg _ (List.map_congr_left fun i _ => ?_)
        show p.buf ((p.readPos + (i + 1)) % pipeBufSize) =
          p.buf (((p.readPos + 1) % pipeBufSize + i) % pipeBufSize)
        rw [Nat.mod_add_mod, Nat.add_right_comm, Nat.add_assoc]
      · show p.byteCount - 1 + 1 = p.byteCount
        omega
      · show p.writePos = ((p.readPos + 1) % pipeBufSize + (p.byteCount - 1)) % pipeBufSize
        rw [Nat.mod_add_mod, ha]
        congr 1
        omega

/-- Many bytes come out of the front, in order. -/
theorem Pipe.takeMany_spec (h : p.takeMany n = .ok (bs, p')) :
    p.contents = bs ++ p'.contents ∧ bs.length = n ∧ p'.byteCount + n = p.byteCount ∧
      (p.Aligned → p'.Aligned) := by
  induction n generalizing p bs with
  | zero =>
    cases h
    exact ⟨rfl, rfl, rfl, id⟩
  | succ n ih =>
    obtain ⟨⟨b, q⟩, htake, h⟩ := Run.bind_eq_ok.mp h
    obtain ⟨⟨cs, q'⟩, hmany, h⟩ := Run.bind_eq_ok.mp h
    cases h
    obtain ⟨hfirst, hcount, ha⟩ := Pipe.take_contents htake
    obtain ⟨hrest, hlen, hcount', ha'⟩ := ih hmany
    refine ⟨by rw [hfirst, hrest]; rfl, by rw [List.length_cons, hlen], by omega, ha' ∘ ha⟩

theorem Pipe.length_contents (p : Pipe) : p.contents.length = p.byteCount := by
  rw [Pipe.contents, List.length_map, List.length_range]

end Ring

/-! ## One call -/

section Calls

variable {task : TaskStruct} (mem : Mem) {idx : ℕ} (bufPtr : Word) (count : ℕ) {p : Pipe}

/-- A ring whose read end is open. -/
structure Pipe.Open (p : Pipe) : Prop where
  ring : p.RingOk
  aligned : p.Aligned
  readers : p.readers ≠ 0

/-- **What a read does**: the oldest bytes, as many as it asks for and there are, go to the caller's
buffer. -/
theorem pipeRead_open (hp : p.Open) (hidx : idx < maxPipes) (hslot : task.pipes idx = some p) :
    ∃ bs q mem', pipeRead task mem idx bufPtr count =
        .ok ⟨some (BitVec.ofNat 64 (min count p.byteCount)), task.setPipe idx (some q), mem'⟩ ∧
      copyFrom mem' bufPtr (min count p.byteCount) = bs ∧ p.contents = bs ++ q.contents ∧
      q.Open := by
  have hpipe : task.pipe idx = .ok (some p) := by rw [TaskStruct.pipe, if_pos hidx, hslot]
  by_cases hzero : p.byteCount = 0
  · refine ⟨[], p, mem, ?_, ?_, rfl, hp⟩
    · have hsame : task.setPipe idx (some p) = task := by
        rw [TaskStruct.setPipe, ← hslot, Function.update_eq_self]
      rw [hsame, hzero, Nat.min_zero]
      simp only [pipeRead, hpipe, bind, Except.bind, hzero, if_true]
      rfl
    · rw [hzero, Nat.min_zero]
      rfl
  · obtain ⟨bs, q, hmany, hring, hr, -⟩ := p.takeMany_ok hp.ring (Nat.min_le_right count p.byteCount)
    obtain ⟨hcontents, hlen, -, ha⟩ := Pipe.takeMany_spec hmany
    have hsize := hp.ring.count_le
    unfold pipeBufSize at hsize
    refine ⟨bs, q, copyOut mem bufPtr bs, ?_, ?_, hcontents, hring, ha hp.aligned, hr ▸ hp.readers⟩
    · simp only [pipeRead, hpipe, bind, Except.bind, hzero, if_false, hmany]
      rfl
    · rw [← hlen]
      exact copyFrom_copyOut mem bufPtr (by omega)

/-- **What a write does**: the first bytes of the caller's buffer, as many as there is room for, go
in behind the others. -/
theorem pipeWrite_open (hp : p.Open) (hidx : idx < maxPipes) (hslot : task.pipes idx = some p) :
    ∃ q, pipeWrite task mem idx bufPtr count =
        .ok ⟨some (BitVec.ofNat 64 (min count (pipeBufSize - p.byteCount))),
          task.setPipe idx (some q), mem⟩ ∧
      q.contents = p.contents ++ copyFrom mem bufPtr (min count (pipeBufSize - p.byteCount)) ∧
      q.Open := by
  have hpipe : task.pipe idx = .ok (some p) := by rw [TaskStruct.pipe, if_pos hidx, hslot]
  have hle := hp.ring.count_le
  have hlen : (copyFrom mem bufPtr (min count (pipeBufSize - p.byteCount))).length = _ :=
    length_copyFrom bufPtr _
  have hroom : p.byteCount + (copyFrom mem bufPtr (min count (pipeBufSize - p.byteCount))).length ≤
      pipeBufSize := by omega
  obtain ⟨q, hput, hring, hr, -⟩ := Pipe.putMany_ok hp.ring hroom
  obtain ⟨hcontents, ha⟩ := (Pipe.putMany_spec hput).2.2 hp.aligned hroom
  refine ⟨q, ?_, hcontents, hring, ha, hr ▸ hp.readers⟩
  simp only [pipeWrite, hpipe, bind, Except.bind, hp.readers, if_false,
    if_neg (Nat.not_lt.mpr hle), hput]
  rfl

end Calls

/-! ## The history of a pipe -/

/-- A call on the pipe, with the memory of the caller. -/
inductive PipeCall
  | write (mem : Mem) (bufPtr : Word) (count : ℕ)
  | read (mem : Mem) (bufPtr : Word) (count : ℕ)

/-- The task, the bytes that writes have accepted and those that reads have returned. -/
structure PipeHistory where
  task : TaskStruct
  accepted : List UInt8
  delivered : List UInt8

/-- The number a call returned. -/
def Outcome.count (o : Outcome) : ℕ := (o.ret.getD 0).toNat

namespace PipeHistory

/-- One call.  What a write accepts are the first bytes of the caller's buffer, and what a read
delivers are the first bytes the caller finds in its buffer, as many as the call returns. -/
def step (idx : ℕ) (s : PipeHistory) : PipeCall → Except Panic PipeHistory
  | .write mem bufPtr count => do
    let o ← pipeWrite s.task mem idx bufPtr count
    return { s with task := o.task, accepted := s.accepted ++ copyFrom mem bufPtr o.count }
  | .read mem bufPtr count => do
    let o ← pipeRead s.task mem idx bufPtr count
    return { s with task := o.task, delivered := s.delivered ++ copyFrom o.mem bufPtr o.count }

/-- A bounded queue: what was delivered is the front of what was accepted, `byte_count` is the
difference and at most 4096, and a call does as much as there is room or there are bytes for. -/
structure Fifo (idx : ℕ) (s : PipeHistory) (p : Pipe) : Prop where
  slot : s.task.pipes idx = some p
  front : s.delivered <+: s.accepted
  balance : p.byteCount = s.accepted.length - s.delivered.length
  bounded : p.byteCount ≤ 4096
  writes : ∀ mem bufPtr count, ∃ o, pipeWrite s.task mem idx bufPtr count = .ok o ∧
    o.count = min count (4096 - p.byteCount)
  reads : ∀ mem bufPtr count, ∃ o, pipeRead s.task mem idx bufPtr count = .ok o ∧
    o.count = min count p.byteCount

/-- What went in is what came out, followed by what is in the ring. -/
structure Inv (idx : ℕ) (s : PipeHistory) (p : Pipe) : Prop where
  slot : s.task.pipes idx = some p
  ring : p.Open
  split : s.accepted = s.delivered ++ p.contents

variable {idx : ℕ} {s : PipeHistory} {p : Pipe}

theorem count_ofNat {n : ℕ} (h : n ≤ 4096) (task : TaskStruct) (mem : Mem) :
    Outcome.count ⟨some (BitVec.ofNat 64 n), task, mem⟩ = n := by
  rw [Outcome.count, Option.getD_some, BitVec.toNat_ofNat]
  exact Nat.mod_eq_of_lt (by omega)

theorem Inv.fifo (h : Inv idx s p) (hidx : idx < maxPipes) : Fifo idx s p := by
  have hle : p.byteCount ≤ 4096 := h.ring.ring.count_le
  refine ⟨h.slot, ⟨p.contents, h.split.symm⟩, ?_, hle, fun mem bufPtr count => ?_,
    fun mem bufPtr count => ?_⟩
  · rw [h.split, List.length_append, Nat.add_sub_cancel_left, Pipe.length_contents]
  · obtain ⟨q, hwrite, -⟩ := pipeWrite_open mem bufPtr count h.ring hidx h.slot
    exact ⟨_, hwrite, count_ofNat (by unfold pipeBufSize; omega) _ _⟩
  · obtain ⟨bs, q, mem', hread, -⟩ := pipeRead_open mem bufPtr count h.ring hidx h.slot
    exact ⟨_, hread, count_ofNat (by omega) _ _⟩

/-- **The step lemma.** -/
theorem Inv.step (h : Inv idx s p) (hidx : idx < maxPipes) (c : PipeCall) :
    ∃ s' q, s.step idx c = .ok s' ∧ Inv idx s' q := by
  have hle : p.byteCount ≤ 4096 := h.ring.ring.count_le
  cases c with
  | write mem bufPtr count =>
    obtain ⟨q, hwrite, hcontents, hopen⟩ := pipeWrite_open mem bufPtr count h.ring hidx h.slot
    refine ⟨_, q, by rw [PipeHistory.step, hwrite]; rfl, ?_, hopen, ?_⟩
    · exact Function.update_self ..
    · dsimp only
      rw [count_ofNat (by unfold pipeBufSize; omega), h.split, hcontents, List.append_assoc]
  | read mem bufPtr count =>
    obtain ⟨bs, q, mem', hread, hbs, hcontents, hopen⟩ := pipeRead_open mem bufPtr count h.ring hidx h.slot
    refine ⟨_, q, by rw [PipeHistory.step, hread]; rfl, ?_, hopen, ?_⟩
    · exact Function.update_self ..
    · dsimp only
      rw [count_ofNat (by omega), hbs, h.split, hcontents, List.append_assoc]

/-- **The run lemma.** -/
theorem Inv.run (h : Inv idx s p) (hidx : idx < maxPipes) (calls : List PipeCall) :
    ∃ s' q, calls.foldlM (PipeHistory.step idx) s = .ok s' ∧ Inv idx s' q := by
  induction calls generalizing s p with
  | nil => exact ⟨s, p, rfl, h⟩
  | cons c calls ih =>
    obtain ⟨s₁, p₁, h₁, hinv₁⟩ := h.step hidx c
    obtain ⟨s', q, hrun, hinv⟩ := ih hinv₁
    refine ⟨s', q, ?_, hinv⟩
    rw [List.foldlM_cons, h₁]
    exact hrun

/-- The pipe that `sys_pipe2` makes, with this many descriptors of each end. -/
def fresh (readers writers : ℕ) : Pipe := { Pipe.new with readers, writers }

theorem open_fresh {readers writers : ℕ} (h : 0 < readers) : (fresh readers writers).Open := by
  have hpos : 0 < pipeBufSize := by decide
  exact ⟨⟨hpos, hpos, Nat.zero_le _⟩, rfl, Nat.ne_of_gt h⟩

end PipeHistory

open PipeHistory

/-- **A pipe is a bounded queue.**  Whatever is written to a pipe with open ends and read from it,
with any counts, no call fails; the bytes the reads return are the front of the bytes the writes
accepted, `byte_count` is what is still between them and at most 4096, and each next write accepts,
and each next read delivers, exactly as much as there is room or there are bytes for. -/
theorem pipe_fifo {task : TaskStruct} {idx readers writers : ℕ} (hidx : idx < maxPipes)
    (hopen : 0 < readers ∧ 0 < writers) (hslot : task.pipes idx = some (fresh readers writers))
    (calls : List PipeCall) :
    ∃ s p, calls.foldlM (PipeHistory.step idx) ⟨task, [], []⟩ = .ok s ∧ Fifo idx s p := by
  have hstart : Inv idx ⟨task, [], []⟩ (fresh readers writers) := ⟨hslot, open_fresh hopen.1, rfl⟩
  obtain ⟨s, p, hrun, hinv⟩ := hstart.run hidx calls
  exact ⟨s, p, hrun, hinv.fifo hidx⟩

/-- Three bytes go in, and two come out. -/
theorem pipe_fifo_twoCalls : ∃ s p, [PipeCall.write (fun a => a.setWidth 8) 5 3,
      .read (fun _ => 0) 100 2].foldlM (PipeHistory.step 0)
        ⟨(TaskStruct.new 0).setPipe 0 (some (fresh 1 1)), [], []⟩ = .ok s ∧ Fifo 0 s p :=
  pipe_fifo (by decide) ⟨Nat.one_pos, Nat.one_pos⟩ rfl _

end QuackOS.Linux
