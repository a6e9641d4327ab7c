import QuackOS.Lib.Gather
import QuackOS.Linux.Pipes
import QuackOS.Fs.Client

/-!
# Gathered writes

`sys_writev` of `liblinux/src/fs.rs` calls `sys_write` for one buffer after the other and adds
up what it returns.  It does not stop where a write falls short, and an error takes the place
of the count.

* `served`, `appendedBy` — a file server that takes a part of each chunk it is sent: what it
  answers, and what it appends to the file;
* `sysWritev` — the call, with the bytes it appends and the buffers they come from;
* `WritevRight` — a count is that of the first bytes of the buffers, in order and without
  gaps, and once bytes are written the call returns a count;
* `writevLoop_pipe` — a pipe takes what fits, behind the bytes it has;
* `writev_right_iff` — the exact condition: pipes are always right, a console when only the
  last buffer is over 4096 bytes, a file when its server cuts none but the last one short.
-/

namespace QuackOS.Linux

open Bytes Gather

/-! ## The server's side of `fs_write` -/

/-- The answers to the requests of `fs_write` from `total` on, of a server that takes as many
bytes of each chunk as it has been given in advance, or fails with a negative code. -/
def served (buf : List UInt8) (total : ℕ) : List Word → List Fs.Reply
  | [] => []
  | a :: rest =>
    if a.toInt < 0 then [.failed (-a.toInt)]
    else
      let n := min a.toNat ((buf.drop total).take Fs.maxChunk).length
      .written n :: served buf (total + n) rest

/-- What that server appends to the file, as long as requests come. -/
def appendedBy (buf : List UInt8) (total : ℕ) : List Word → List UInt8
  | [] => []
  | a :: rest =>
    if total < buf.length ∧ 0 ≤ a.toInt ∧ 0 < a.toNat then
      let chunk := (buf.drop total).take Fs.maxChunk
      chunk.take a.toNat ++ appendedBy buf (total + (chunk.take a.toNat).length) rest
    else []

/-- `fs_write` against that server. -/
def fileWrite (fid : FsFid) (buf : List UInt8) (answers : List Word) : Option (Except ℤ ℕ) :=
  (Fs.Liblinux.fsWrite fid buf (served buf 0 answers)).bind Prod.snd

section Served

variable {buf : List UInt8} {fid : FsFid}

/-- A write and what it has appended: the next bytes of the buffer, as many as it counts. -/
theorem writeLoop_served (onError : ℕ → ℤ → Except ℤ ℕ) {answers : List Word} {total : ℕ}
    (htotal : total ≤ buf.length) (hanswers : buf.length ≤ total + answers.length) :
    ∃ reqs r k, Fs.writeLoop (Fs.chunkRequest fid) onError buf total (served buf total answers) =
        some (reqs, some r) ∧
      appendedBy buf total answers = (buf.drop total).take k ∧ total + k ≤ buf.length ∧
      (r = .ok (total + k) ∨ ∃ e, 0 < e ∧ e ≤ 2 ^ 63 ∧ r = onError (total + k) e) := by
  induction answers generalizing total with
  | nil =>
    refine ⟨[], .ok total, 0, ?_, ?_, by omega, .inl rfl⟩
    · rw [Fs.writeLoop, if_neg (by simp only [List.length_nil] at hanswers; omega)]
    · rw [appendedBy, List.take_zero]
  | cons a rest ih =>
    by_cases hlt : total < buf.length
    · have hchunk : ((buf.drop total).take Fs.maxChunk).length ≤ Fs.maxChunk :=
        List.length_take_le _ _
      obtain ⟨req, hreq, -, -⟩ := Fs.Call.chunkRequest_spec fid hchunk
      by_cases hneg : a.toInt < 0
      · refine ⟨[req], onError total (-a.toInt), 0, ?_, ?_, by omega,
          .inr ⟨-a.toInt, by omega, ?_, rfl⟩⟩
        · rw [Fs.writeLoop, if_pos hlt, hreq, served, if_pos hneg]
          rfl
        · rw [appendedBy, if_neg (by omega), List.take_zero]
        · have := BitVec.le_toInt a
          omega
      · rcases Nat.eq_zero_or_pos a.toNat with hzero | hpos
        · refine ⟨[req], .ok total, 0, ?_, ?_, by omega, .inl rfl⟩
          · rw [Fs.writeLoop, if_pos hlt, hreq, served, if_neg hneg, hzero, Nat.zero_min]
            rfl
          · rw [appendedBy, if_neg (by omega), List.take_zero]
        · -- the loop goes on behind the bytes that were taken
          have hn : 0 < min a.toNat ((buf.drop total).take Fs.maxChunk).length := by
            rw [List.length_take, List.length_drop, Fs.maxChunk, Fs.ipcMax]
            omega
          generalize hmin : min a.toNat ((buf.drop total).take Fs.maxChunk).length = n at hn
          have hlen : n ≤ buf.length - total := by
            rw [← hmin, List.length_take, List.length_drop]
            omega
          rw [List.length_cons] at hanswers
          obtain ⟨reqs, r, k, hrun, hbytes, hk, hr⟩ :=
            @ih (total + n) (by omega) (by omega)
          refine ⟨req :: reqs, r, n + k, ?_, ?_, by omega, by rwa [← Nat.add_assoc]⟩
          · obtain ⟨m, rfl⟩ : ∃ m, n = m + 1 := ⟨n - 1, by omega⟩
            rw [Fs.writeLoop, if_pos hlt, hreq, served, if_neg hneg]
            simp only [hmin, Option.bind_some, hrun, Option.map_some]
          · have htake : ((buf.drop total).take Fs.maxChunk).take a.toNat =
                (buf.drop total).take n := by
              rw [List.take_take, List.take_eq_take_iff, ← hmin, List.length_take]
              omega
            rw [appendedBy, if_pos ⟨hlt, by omega, hpos⟩]
            simp only [htake, List.length_take, List.length_drop]
            rw [Nat.min_eq_left hlen, hbytes, List.take_add, List.drop_drop]
    · refine ⟨[], .ok total, 0, ?_, ?_, by omega, .inl rfl⟩
      · rw [Fs.writeLoop, if_neg hlt]
      · rw [appendedBy, if_neg (by omega), List.take_zero]

/-- `fs_write` returns, and has appended as many of the first bytes of the buffer as it counts;
an error means none. -/
theorem fileWrite_spec {answers : List Word} (hanswers : buf.length ≤ answers.length) :
    ∃ r, fileWrite fid buf answers = some r ∧
      ((∃ k, r = .ok k ∧ k ≤ buf.length ∧ appendedBy buf 0 answers = buf.take k) ∨
        ∃ e, r = .error e ∧ 0 < e ∧ e ≤ 2 ^ 63 ∧ appendedBy buf 0 answers = []) := by
  obtain ⟨reqs, r, k, hrun, hbytes, hk, hr⟩ := @writeLoop_served buf fid
    (fun total e => if 0 < total then .ok total else .error e) answers 0 (Nat.zero_le _) (by omega)
  refine ⟨r, by rw [fileWrite, Fs.Liblinux.fsWrite, hrun]; rfl, ?_⟩
  rw [Nat.zero_add] at hr hk
  rw [List.drop_zero] at hbytes
  rcases hr with rfl | ⟨e, hpos, hle, rfl⟩
  · exact .inl ⟨k, rfl, hk, hbytes⟩
  · by_cases h0 : 0 < k
    · exact .inl ⟨k, if_pos h0, hk, hbytes⟩
    · refine .inr ⟨e, if_neg h0, hpos, hle, ?_⟩
      rw [hbytes, show k = 0 by omega, List.take_zero]

end Served

/-! ## The call -/

section Call

variable (mem : Mem)

/-- The bytes of a buffer that `sys_write` looks at in one call on a console or a file. -/
def capped (base : Word) (len : ℕ) : List UInt8 := copyFrom mem base (min len 4096)

/-- The answers of the server to the requests of one `fs_write`; each takes a byte at least or
is the last. -/
def answersFor (base : Word) (len : ℕ) (answers : ℕ → Word) : List Word :=
  (List.range (capped mem base len).length).map answers

/-- The world of one write: `sys_console_write` puts all its bytes out, and the file server
answers `fs_write`. -/
def writeWorld (task : TaskStruct) (fd : ℕ) (base : Word) (len : ℕ) (answers : ℕ → Word) :
    World where
  consoleWrite := (capped mem base len).length
  consoleRead := []
  fsRead := .ok []
  fsWrite :=
    match task.fdTable.get fd with
    | some (.file fid) =>
      (fileWrite fid (capped mem base len) (answersFor mem base len answers)).getD (.ok 0)
    | _ => .ok 0

/-- The bytes one write appends to the console, the file or the pipe. -/
def appendedOne (task : TaskStruct) (fd : ℕ) (base : Word) (len : ℕ) (answers : ℕ → Word) :
    List UInt8 :=
  match task.fdTable.get fd with
  | some .console => if fd = 0 then [] else capped mem base len
  | some (.file _) => appendedBy (capped mem base len) 0 (answersFor mem base len answers)
  | some (.pipeWrite idx) =>
    match task.pipes idx with
    | some pipe =>
      if pipe.readers = 0 then []
      else copyFrom mem base (min len (pipeBufSize - pipe.byteCount))
    | none => []
  | _ => []

/-- What `sys_writev` leaves behind: its result, the buffers it got through with the number of
bytes written of each, the bytes written, and the task. -/
structure Gathered where
  ret : Word
  pieces : List (List UInt8 × ℕ)
  appended : List UInt8
  task : TaskStruct

/-- One more buffer in front. -/
def Gathered.cons (r : Gathered) (buf bytes : List UInt8) : Gathered :=
  { r with pieces := (buf, bytes.length) :: r.pieces, appended := bytes ++ r.appended }

/-- The loop of `sys_writev`, with the answers of the server to each of the writes. -/
def writevLoop (fd : ℕ) : TaskStruct → Word → List (Word × ℕ) → (ℕ → ℕ → Word) →
    Except Panic Gathered
  | task, total, [], _ => .ok ⟨total, [], [], task⟩
  | task, total, (base, len) :: iovs, answers =>
    if len = 0 then
      (writevLoop fd task total iovs fun i => answers (i + 1)).map fun r => r.cons [] []
    else do
      let o ← sysWrite task mem fd base len (writeWorld mem task fd base len (answers 0))
      -- a write never waits
      let n := o.ret.getD 0
      if n.toInt < 0 then return ⟨n, [], [], o.task⟩
      else
        let r ← writevLoop fd o.task (total + n) iovs fun i => answers (i + 1)
        return r.cons (copyFrom mem base len) (appendedOne mem task fd base len (answers 0))

/-- The elements of the array at `iov`. -/
def iovecs (iov : Word) (iovcnt : ℕ) : List (Word × ℕ) :=
  (List.range iovcnt).map fun i =>
    (readU64 mem (iov + BitVec.ofNat 64 (i * 16)),
      (readU64 mem (iov + BitVec.ofNat 64 (i * 16 + 8))).toNat)

/-- `sys_writev`. -/
def sysWritev (task : TaskStruct) (fd : ℕ) (iov : Word) (iovcnt : ℕ) (answers : ℕ → ℕ → Word) :
    Except Panic Gathered :=
  writevLoop mem fd task 0 (iovecs mem iov iovcnt) answers

/-- The buffers laid end to end. -/
def buffers (iovs : List (Word × ℕ)) : List UInt8 := iovs.flatMap fun v => copyFrom mem v.1 v.2

/-- What `sys_writev` promises: a count is that of the bytes written, which are the first ones of
the buffers without a gap, and once bytes are written it returns a count. -/
def WritevRight (task : TaskStruct) (fd : ℕ) (iov : Word) (iovcnt : ℕ) (answers : ℕ → ℕ → Word) :
    Prop :=
  ∀ r, sysWritev mem task fd iov iovcnt answers = .ok r →
    (0 ≤ r.ret.toInt → positions 0 r.pieces = List.range r.ret.toNat ∧
      r.appended = (buffers mem (iovecs mem iov iovcnt)).take r.ret.toNat) ∧
    (r.appended ≠ [] → 0 ≤ r.ret.toInt)

/-! ## Consoles and files -/

/-- What one write comes to on anything but a pipe: an error, or a number of bytes. -/
def outcome (task : TaskStruct) (fd : ℕ) (base : Word) (len : ℕ) (answers : ℕ → Word) :
    Except Word ℕ :=
  if len = 0 then .ok 0
  else
    match task.fdTable.get fd with
    | some .console => if fd = 0 then .error (Errno.word .EBADF) else .ok (min len 4096)
    | some (.file fid) =>
      match fileWrite fid (capped mem base len) (answersFor mem base len answers) with
      | some (.ok n) => .ok n
      | some (.error e) => .error (errnoWord e)
      | none => .ok 0
    | _ => .error (Errno.word .EBADF)

/-- The buffers with what the write of each comes to. -/
def outcomes (task : TaskStruct) (fd : ℕ) : List (Word × ℕ) → (ℕ → ℕ → Word) →
    List (List UInt8 × Except Word ℕ)
  | [], _ => []
  | (base, len) :: iovs, answers =>
    (copyFrom mem base len, outcome mem task fd base len (answers 0)) ::
      outcomes task fd iovs fun i => answers (i + 1)

variable {mem}

theorem take_copyFrom (base : Word) (n len : ℕ) :
    (copyFrom mem base len).take n = copyFrom mem base (min n len) := by
  simp only [copyFrom, copyIn, ← List.map_take, List.take_range]

theorem length_capped (base : Word) (len : ℕ) : (capped mem base len).length = min len 4096 :=
  length_copyFrom base _

theorem take_capped (base : Word) {n len : ℕ} (h : n ≤ min len 4096) :
    (capped mem base len).take n = (copyFrom mem base len).take n := by
  rw [capped, take_copyFrom, take_copyFrom]
  congr 1
  omega

/-- A number of bytes as a result. -/
theorem toInt_count {n : ℕ} (h : n < 2 ^ 63) : (BitVec.ofNat 64 n).toInt = n := by
  have hnat : (BitVec.ofNat 64 n).toNat = n := by
    rw [BitVec.toNat_ofNat]
    omega
  rw [BitVec.toInt_eq_toNat_cond, hnat, if_pos (by omega)]

theorem errno_neg (e : Errno) : (Errno.word e).toInt < 0 := by cases e <;> decide

variable (mem)

/-- The result of one write agrees with what it comes to, and so do the bytes it appends. -/
def WroteOne (task : TaskStruct) (fd : ℕ) (base : Word) (len : ℕ) (answers : ℕ → Word)
    (n : Word) : Prop :=
  match outcome mem task fd base len answers with
  | .ok k => n = BitVec.ofNat 64 k ∧ k ≤ min len 4096 ∧
    appendedOne mem task fd base len answers = (copyFrom mem base len).take k
  | .error e => n = e ∧ e.toInt < 0 ∧ appendedOne mem task fd base len answers = []

variable {mem}

section One

variable {task : TaskStruct} {fd : ℕ} {base : Word} {len : ℕ} {answers : ℕ → Word}

theorem sysWrite_console (hget : task.fdTable.get fd = some .console) (hlen : len ≠ 0) :
    ∃ n, sysWrite task mem fd base len (writeWorld mem task fd base len answers) =
        .ok (.just task mem n) ∧ WroteOne mem task fd base len answers n := by
  unfold WroteOne outcome sysWrite appendedOne
  rw [if_neg hlen, hget]
  by_cases h0 : fd = 0
  · simp only [if_pos h0]
    exact ⟨_, rfl, rfl, errno_neg _, trivial⟩
  · have hcount : (writeWorld mem task fd base len answers).consoleWrite =
        (min len 4096 : ℕ) := by
      rw [writeWorld, length_capped]
    simp only [if_neg h0, hcount, Int.not_lt.mpr (Int.natCast_nonneg _), if_false]
    refine ⟨_, rfl, by rw [BitVec.ofInt_natCast], le_rfl, ?_⟩
    rw [take_copyFrom, capped, Nat.min_eq_left (Nat.min_le_left len 4096)]

theorem sysWrite_file {fid : FsFid} (hget : task.fdTable.get fd = some (.file fid))
    (hlen : len ≠ 0) :
    ∃ n, sysWrite task mem fd base len (writeWorld mem task fd base len answers) =
        .ok (.just task mem n) ∧ WroteOne mem task fd base len answers n := by
  have hanswers : (capped mem base len).length ≤ (answersFor mem base len answers).length := by
    simp [answersFor]
  obtain ⟨r, hr, hspec⟩ := @fileWrite_spec (capped mem base len) fid _ hanswers
  have hworld : (writeWorld mem task fd base len answers).fsWrite = r := by
    simp only [writeWorld, hget, hr, Option.getD_some]
  unfold WroteOne outcome sysWrite appendedOne
  rw [if_neg hlen, hget]
  rcases hspec with ⟨k, rfl, hk, hbytes⟩ | ⟨e, rfl, hpos, hle, hbytes⟩
  · rw [length_capped] at hk
    simp only [hworld, hr]
    exact ⟨_, rfl, rfl, hk, by rw [hbytes, take_capped base hk]⟩
  · simp only [hworld, hr]
    exact ⟨_, rfl, rfl, errnoWord_neg hpos hle, hbytes⟩

/-- One write on anything but a pipe. -/
theorem sysWrite_one (hpipe : ∀ idx, task.fdTable.get fd ≠ some (.pipeWrite idx))
    (hlen : len ≠ 0) :
    ∃ n, sysWrite task mem fd base len (writeWorld mem task fd base len answers) =
        .ok (.just task mem n) ∧ WroteOne mem task fd base len answers n := by
  rcases hget : task.fdTable.get fd with _ | kind
  · unfold WroteOne outcome sysWrite appendedOne
    rw [if_neg hlen, hget]
    exact ⟨_, rfl, rfl, errno_neg _, rfl⟩
  · cases kind with
    | console => exact sysWrite_console hget hlen
    | file fid => exact sysWrite_file hget hlen
    | pipeWrite idx => exact absurd hget (hpipe idx)
    | free | pipeRead idx =>
      unfold WroteOne outcome sysWrite appendedOne
      rw [if_neg hlen, hget]
      exact ⟨_, rfl, rfl, errno_neg _, rfl⟩

end One

variable (mem)

/-- What the loop returns on anything but a pipe, from the writes one by one. -/
structure LoopSpec (task : TaskStruct) (fd : ℕ) (total : Word) (iovs : List (Word × ℕ))
    (answers : ℕ → ℕ → Word) (r : Gathered) : Prop where
  pieces : r.pieces = (untilError (outcomes mem task fd iovs answers)).1
  within : Within r.pieces
  appended : r.appended = items r.pieces
  count : (untilError (outcomes mem task fd iovs answers)).2 = none →
    r.ret = total + BitVec.ofNat 64 (taken r.pieces) ∧
      r.pieces.map Prod.fst = iovs.map fun v => copyFrom mem v.1 v.2
  error : ∀ e, (untilError (outcomes mem task fd iovs answers)).2 = some e →
    r.ret = e ∧ e.toInt < 0

variable {mem}

theorem LoopSpec.cons {task : TaskStruct} {fd : ℕ} {total base : Word} {len k : ℕ}
    {iovs : List (Word × ℕ)} {answers : ℕ → ℕ → Word} {r : Gathered} {bytes : List UInt8}
    (h : LoopSpec mem task fd (total + BitVec.ofNat 64 k) iovs (fun i => answers (i + 1)) r)
    (hout : outcome mem task fd base len (answers 0) = .ok k) (hk : k ≤ len)
    (hbytes : bytes = (copyFrom mem base len).take k) :
    LoopSpec mem task fd total ((base, len) :: iovs) answers
      (r.cons (copyFrom mem base len) bytes) := by
  have hlen : bytes.length = k := by
    rw [hbytes, List.length_take, length_copyFrom, Nat.min_eq_left hk]
  have huntil : untilError (outcomes mem task fd ((base, len) :: iovs) answers) =
      ((copyFrom mem base len, k) :: (untilError (outcomes mem task fd iovs
          fun i => answers (i + 1))).1,
        (untilError (outcomes mem task fd iovs fun i => answers (i + 1))).2) := by
    rw [outcomes, hout, untilError]
  refine ⟨?_, ?_, ?_, fun hnone => ?_, fun e he => ?_⟩
  · rw [huntil, Gathered.cons, hlen, h.pieces]
  · intro p hp
    rcases List.mem_cons.mp hp with rfl | hp
    · rw [length_copyFrom, hlen]
      exact hk
    · exact h.within p hp
  · simp only [Gathered.cons, items, List.flatMap_cons, hlen]
    rw [h.appended, items, hbytes]
  · rw [huntil] at hnone
    obtain ⟨hret, hmap⟩ := h.count hnone
    refine ⟨?_, by simp only [Gathered.cons, List.map_cons, hmap]⟩
    simp only [Gathered.cons, hret, taken_cons, hlen, BitVec.ofNat_add, BitVec.add_assoc]
  · rw [huntil] at he
    exact h.error e he

theorem writevLoop_spec {task : TaskStruct} {fd : ℕ}
    (hpipe : ∀ idx, task.fdTable.get fd ≠ some (.pipeWrite idx)) (total : Word)
    (iovs : List (Word × ℕ)) (answers : ℕ → ℕ → Word) :
    ∃ r, writevLoop mem fd task total iovs answers = .ok r ∧
      LoopSpec mem task fd total iovs answers r := by
  induction iovs generalizing total answers with
  | nil =>
    refine ⟨_, rfl, rfl, fun p hp => (List.not_mem_nil hp).elim, rfl, fun _ => ⟨?_, rfl⟩,
      fun e h => (Option.some_ne_none e h.symm).elim⟩
    simp
  | cons v iovs ih =>
    obtain ⟨base, len⟩ := v
    rw [writevLoop]
    by_cases hlen : len = 0
    · obtain ⟨r, hrun, hspec⟩ := ih (total + BitVec.ofNat 64 0) fun i => answers (i + 1)
      have hout : outcome mem task fd base len (answers 0) = .ok 0 := if_pos hlen
      refine ⟨r.cons [] [], ?_, ?_⟩
      · rw [BitVec.add_zero] at hrun
        rw [if_pos hlen, hrun]
        rfl
      · have hcons := hspec.cons hout (Nat.zero_le _) rfl
        rw [hlen] at hcons ⊢
        exact hcons
    · obtain ⟨n, hwrite, hone⟩ := @sysWrite_one mem task fd base len (answers 0) hpipe hlen
      rw [if_neg hlen, hwrite]
      unfold WroteOne at hone
      cases hout : outcome mem task fd base len (answers 0) with
      | ok k =>
        rw [hout] at hone
        obtain ⟨rfl, hk, hbytes⟩ := hone
        obtain ⟨r, hrun, hspec⟩ := ih (total + BitVec.ofNat 64 k) fun i => answers (i + 1)
        refine ⟨_, ?_, hspec.cons hout (by omega) hbytes⟩
        have hnonneg : ¬ (BitVec.ofNat 64 k).toInt < 0 := by
          rw [toInt_count (by omega)]
          omega
        simp only [bind, Except.bind, Outcome.just, Option.getD_some, if_neg hnonneg, hrun]
        rfl
      | error e =>
        rw [hout] at hone
        obtain ⟨rfl, hneg, -⟩ := hone
        have huntil : untilError (outcomes mem task fd ((base, len) :: iovs) answers) =
            ([], some n) := by
          rw [outcomes, hout, untilError]
        refine ⟨⟨n, [], [], task⟩, if_pos hneg, ?_⟩
        · refine ⟨by rw [huntil], fun p hp => (List.not_mem_nil hp).elim, rfl, fun h => ?_,
            fun e he => ?_⟩
          · rw [huntil] at h
            cases h
          · rw [huntil] at he
            cases he
            exact ⟨rfl, hneg⟩

/-- The writes, up to the first that fails, leave no gap and can be counted; or nothing is
written before one fails. -/
def Gatherable (os : List (List UInt8 × Except Word ℕ)) : Prop :=
  match untilError os with
  | (ps, none) => Gapless ps ∧ taken ps < 2 ^ 63
  | (ps, some _) => taken ps = 0

section Right

variable {task : TaskStruct} {fd : ℕ} {iovs : List (Word × ℕ)} {r : Gathered}

/-- A call that returns the number of bytes of a gapless write is right. -/
theorem right_of_count (hret : r.ret = BitVec.ofNat 64 (taken r.pieces))
    (hmap : r.pieces.map Prod.fst = iovs.map fun v => copyFrom mem v.1 v.2)
    (hwithin : Within r.pieces) (hitems : r.appended = items r.pieces)
    (hgapless : Gapless r.pieces) (hlt : taken r.pieces < 2 ^ 63) :
    0 ≤ r.ret.toInt ∧ positions 0 r.pieces = List.range r.ret.toNat ∧
      r.appended = (buffers mem iovs).take r.ret.toNat := by
  have hnat : r.ret.toNat = taken r.pieces := by
    rw [hret, BitVec.toNat_ofNat]
    omega
  have hwhole : whole r.pieces = buffers mem iovs := by
    rw [whole, buffers, List.flatMap_def, hmap, ← List.flatMap_def]
  refine ⟨by rw [hret, toInt_count hlt]; omega, ?_, ?_⟩
  · rw [hnat, List.range_eq_range']
    exact (positions_eq_range_iff hwithin).mpr hgapless
  · rw [hitems, items_eq_take hwithin hgapless, hwhole, hnat]

theorem appended_eq_nil_iff (hwithin : Within r.pieces) (hitems : r.appended = items r.pieces) :
    r.appended = [] ↔ taken r.pieces = 0 := by
  rw [← length_items hwithin, hitems, List.length_eq_zero_iff]

/-- Anything but a pipe: right just when the writes fit together. -/
theorem writev_right_iff_gatherable {iov : Word} {iovcnt : ℕ} {answers : ℕ → ℕ → Word}
    (hpipe : ∀ idx, task.fdTable.get fd ≠ some (.pipeWrite idx)) :
    WritevRight mem task fd iov iovcnt answers ↔
      Gatherable (outcomes mem task fd (iovecs mem iov iovcnt) answers) := by
  obtain ⟨r, hrun, hspec⟩ := writevLoop_spec hpipe 0 (iovecs mem iov iovcnt) answers
  have hright : WritevRight mem task fd iov iovcnt answers ↔
      (0 ≤ r.ret.toInt → positions 0 r.pieces = List.range r.ret.toNat ∧
        r.appended = (buffers mem (iovecs mem iov iovcnt)).take r.ret.toNat) ∧
      (r.appended ≠ [] → 0 ≤ r.ret.toInt) := by
    constructor
    · exact fun h => h r hrun
    · intro h r' hrun'
      obtain rfl := Except.ok.inj (hrun.symm.trans hrun')
      exact h
  have hnil := appended_eq_nil_iff hspec.within hspec.appended
  rw [hright, Gatherable]
  cases herr : (untilError (outcomes mem task fd (iovecs mem iov iovcnt) answers)).2 with
  | some e =>
    obtain ⟨hret, hneg⟩ := hspec.error e herr
    rw [show untilError (outcomes mem task fd (iovecs mem iov iovcnt) answers) =
      (r.pieces, some e) from Prod.ext hspec.pieces.symm herr]
    show _ ↔ taken r.pieces = 0
    rw [← hnil, hret]
    constructor
    · rintro ⟨-, h⟩
      by_contra hne
      have := h hne
      omega
    · exact fun h => ⟨fun h0 => by omega, fun hne => absurd h hne⟩
  | none =>
    obtain ⟨hret, hmap⟩ := hspec.count herr
    rw [zero_add] at hret
    rw [show untilError (outcomes mem task fd (iovecs mem iov iovcnt) answers) =
      (r.pieces, none) from Prod.ext hspec.pieces.symm herr]
    show _ ↔ Gapless r.pieces ∧ taken r.pieces < 2 ^ 63
    constructor
    · rintro ⟨hcount, hless⟩
      have hnonneg : 0 ≤ r.ret.toInt := by
        by_contra hneg
        have hzero := hnil.mp (by_contra fun hne => hneg (hless hne))
        rw [hret, hzero] at hneg
        exact hneg (by decide)
      obtain ⟨hpos, -⟩ := hcount hnonneg
      have htaken : taken r.pieces = r.ret.toNat := by
        rw [← @length_positions _ r.pieces 0, hpos, List.length_range]
      refine ⟨?_, ?_⟩
      · rw [← htaken, List.range_eq_range'] at hpos
        exact (positions_eq_range_iff hspec.within).mp hpos
      · rw [BitVec.toInt_eq_toNat_cond] at hnonneg
        have := r.ret.isLt
        split at hnonneg <;> omega
    · rintro ⟨hgapless, hlt⟩
      obtain ⟨h1, h2⟩ := right_of_count hret hmap hspec.within hspec.appended hgapless hlt
      exact ⟨fun _ => h2, fun _ => h1⟩

end Right

/-! ## Pipes -/

/-- The bytes in a pipe, the oldest first. -/
def Pipe.contents (p : Pipe) : List UInt8 :=
  (List.range p.byteCount).map fun i => p.buf ((p.readPos + i) % pipeBufSize)

/-- The write position stands behind the bytes in the ring. -/
def Pipe.Aligned (p : Pipe) : Prop := p.writePos = (p.readPos + p.byteCount) % pipeBufSize

/-- A byte into a ring that has room goes behind the others. -/
theorem Pipe.put_contents {p p' : Pipe} {b : UInt8} (h : p.put b = .ok p') (ha : p.Aligned)
    (hroom : p.byteCount < pipeBufSize) : p'.contents = p.contents ++ [b] ∧ p'.Aligned := by
  rw [Pipe.put] at h
  split at h
  · cases h
  · obtain rfl := Except.ok.inj h
    refine ⟨?_, ?_⟩
    · show (List.range (p.byteCount + 1)).map _ = _
      rw [List.range_succ, List.map_append, Pipe.contents]
      congr 1
      · refine List.map_congr_left fun i hi => Function.update_of_ne ?_ b p.buf
        -- two places less than the size apart are different
        rw [List.mem_range] at hi
        rw [ha]
        show (p.readPos + i) % pipeBufSize ≠ (p.readPos + p.byteCount) % pipeBufSize
        unfold pipeBufSize at hroom ⊢
        omega
      · rw [List.map_singleton, ← ha]
        exact congrArg (fun c => [c]) (Function.update_self p.writePos b p.buf)
    · show (p.writePos + 1) % pipeBufSize = (p.readPos + (p.byteCount + 1)) % pipeBufSize
      rw [ha, Nat.mod_add_mod, Nat.add_assoc]

/-- Many bytes go in behind the others, in order. -/
theorem Pipe.putMany_spec {bs : List UInt8} {p p' : Pipe} (h : bs.foldlM Pipe.put p = .ok p') :
    p'.readers = p.readers ∧ p'.byteCount = p.byteCount + bs.length ∧
      (p.Aligned → p.byteCount + bs.length ≤ pipeBufSize →
        p'.contents = p.contents ++ bs ∧ p'.Aligned) := by
  induction bs generalizing p with
  | nil =>
    obtain rfl := Except.ok.inj h
    exact ⟨rfl, rfl, fun ha _ => ⟨(List.append_nil _).symm, ha⟩⟩
  | cons b bs ih =>
    rw [List.foldlM_cons] at h
    obtain ⟨q, hput, hrest⟩ := Run.bind_eq_ok.mp h
    obtain ⟨hreaders, hcount, hcontents⟩ := ih hrest
    have hq : q.readers = p.readers ∧ q.byteCount = p.byteCount + 1 := by
      rw [Pipe.put] at hput
      split at hput
      · cases hput
      · obtain rfl := Except.ok.inj hput
        exact ⟨rfl, rfl⟩
    rw [List.length_cons]
    refine ⟨hreaders.trans hq.1, by omega, fun ha hroom => ?_⟩
    obtain ⟨hone, ha'⟩ := Pipe.put_contents hput ha (by omega)
    obtain ⟨hmany, ha''⟩ := hcontents ha' (by omega)
    exact ⟨by rw [hmany, hone, List.append_assoc]; rfl, ha''⟩

section Pipes

variable {task : TaskStruct} {fd idx : ℕ} {base : Word} {len : ℕ} {answers : ℕ → Word}

/-- A write to a pipe that has readers puts in the first bytes, as many as there is room for. -/
theorem sysWrite_pipe {p : Pipe} {w : World} {o : Outcome}
    (hget : task.fdTable.get fd = some (.pipeWrite idx)) (hpipe : task.pipes idx = some p)
    (hreaders : p.readers ≠ 0) (h : sysWrite task mem fd base len w = .ok o) :
    ∃ q, (copyFrom mem base (min len (pipeBufSize - p.byteCount))).foldlM Pipe.put p = .ok q ∧
      p.byteCount ≤ pipeBufSize ∧
      o = ⟨some (BitVec.ofNat 64 (min len (pipeBufSize - p.byteCount))),
        task.setPipe idx (some q), mem⟩ := by
  unfold sysWrite pipeWrite at h
  rw [hget] at h
  obtain ⟨slot, hslot, h⟩ := Run.bind_eq_ok.mp h
  rw [TaskStruct.pipe, hpipe] at hslot
  split at hslot
  · obtain rfl := Except.ok.inj hslot
    simp only [if_neg hreaders] at h
    split at h
    · cases h
    · obtain ⟨q, hput, h⟩ := Run.bind_eq_ok.mp h
      exact ⟨q, hput, by omega, (Except.ok.inj h).symm⟩
  · cases hslot

/-- A write to a pipe that nobody reads fails. -/
theorem sysWrite_broken {w : World} {o : Outcome}
    (hget : task.fdTable.get fd = some (.pipeWrite idx))
    (hbroken : ∀ p, task.pipes idx = some p → p.readers = 0)
    (h : sysWrite task mem fd base len w = .ok o) : ∃ e, o.ret = some (Errno.word e) := by
  unfold sysWrite pipeWrite at h
  rw [hget] at h
  obtain ⟨slot, hslot, h⟩ := Run.bind_eq_ok.mp h
  rw [TaskStruct.pipe] at hslot
  split at hslot
  · obtain rfl := Except.ok.inj hslot
    rcases hpipe : task.pipes idx with _ | p
    · rw [hpipe] at h
      obtain rfl := Except.ok.inj h
      exact ⟨_, rfl⟩
    · rw [hpipe] at h
      simp only [if_pos (hbroken p hpipe)] at h
      obtain rfl := Except.ok.inj h
      exact ⟨_, rfl⟩
  · cases hslot

variable (mem)

/-- A call that went through all the buffers, with room for so many bytes, returns the number of
bytes it wrote, and these leave no gap. -/
structure Counted (total : Word) (iovs : List (Word × ℕ)) (room : ℕ) (r : Gathered) : Prop where
  ret : r.ret = total + BitVec.ofNat 64 (taken r.pieces)
  all : r.pieces.map Prod.fst = iovs.map fun v => copyFrom mem v.1 v.2
  within : Within r.pieces
  appended : r.appended = items r.pieces
  gapless : Gapless r.pieces
  room : taken r.pieces ≤ room

variable {mem}

/-- One more buffer in front: it is written whole, or fills the room. -/
theorem Counted.cons {total : Word} {iovs : List (Word × ℕ)} {room : ℕ} {r : Gathered}
    (h : Counted mem (total + BitVec.ofNat 64 (min len room)) iovs (room - min len room) r) :
    Counted mem total ((base, len) :: iovs) room
      (r.cons (copyFrom mem base len) (copyFrom mem base (min len room))) where
  ret := by
    simp only [Gathered.cons, h.ret, taken_cons, length_copyFrom, BitVec.ofNat_add,
      BitVec.add_assoc]
  all := by simp only [Gathered.cons, List.map_cons, h.all]
  within p hp := by
    rcases List.mem_cons.mp hp with rfl | hp
    · simp only [length_copyFrom]
      exact Nat.min_le_left len room
    · exact h.within p hp
  appended := by
    simp only [Gathered.cons, items, List.flatMap_cons, length_copyFrom, take_copyFrom]
    rw [h.appended, items, Nat.min_right_comm, Nat.min_self]
  gapless := by
    refine gapless_cons.mpr ⟨?_, h.gapless⟩
    have := h.room
    simp only [length_copyFrom]
    omega
  room := by
    have := h.room
    simp only [Gathered.cons, taken_cons, length_copyFrom]
    omega

/-- A pipe that has readers takes the first bytes of the buffers, as many as there is room for,
and they go in behind the others. -/
theorem writevLoop_pipe {p : Pipe} {total : Word} {iovs : List (Word × ℕ)}
    {answers : ℕ → ℕ → Word} {r : Gathered}
    (hget : task.fdTable.get fd = some (.pipeWrite idx)) (hpipe : task.pipes idx = some p)
    (hreaders : p.readers ≠ 0) (h : writevLoop mem fd task total iovs answers = .ok r) :
    Counted mem total iovs (pipeBufSize - p.byteCount) r ∧
      (p.Aligned → ∃ q, r.task.pipes idx = some q ∧ q.contents = p.contents ++ r.appended) := by
  induction iovs generalizing task total answers p r with
  | nil =>
    obtain rfl := Except.ok.inj h
    refine ⟨⟨?_, rfl, fun p hp => (List.not_mem_nil hp).elim, rfl, List.Pairwise.nil,
      Nat.zero_le _⟩, fun _ => ⟨p, hpipe, (List.append_nil _).symm⟩⟩
    rw [taken_nil]
    exact (add_zero total).symm
  | cons v iovs ih =>
    obtain ⟨base, len⟩ := v
    rw [writevLoop] at h
    by_cases hlen : len = 0
    · subst hlen
      rw [if_pos rfl] at h
      obtain ⟨r', hrun, rfl⟩ := Run.map_eq_ok.mp h
      obtain ⟨hcounted, hcontents⟩ := ih hget hpipe hreaders hrun
      refine ⟨?_, hcontents⟩
      have hcons := @Counted.cons mem base 0 total iovs (pipeBufSize - p.byteCount) r' (by
        rw [Nat.zero_min, Nat.sub_zero, show total + BitVec.ofNat 64 0 = total from add_zero total]
        exact hcounted)
      rwa [Nat.zero_min] at hcons
    · rw [if_neg hlen] at h
      obtain ⟨o, hwrite, h⟩ := Run.bind_eq_ok.mp h
      obtain ⟨q, hput, hfits, rfl⟩ := sysWrite_pipe hget hpipe hreaders hwrite
      obtain ⟨hq, hcount, hcontents⟩ := Pipe.putMany_spec hput
      rw [length_copyFrom] at hcount hcontents
      simp only [Option.getD_some] at h
      rw [if_neg (by rw [toInt_count (by unfold pipeBufSize; omega)]; omega)] at h
      obtain ⟨r', hrun, h⟩ := Run.bind_eq_ok.mp h
      obtain rfl := Except.ok.inj h
      have happended : appendedOne mem task fd base len (answers 0) =
          copyFrom mem base (min len (pipeBufSize - p.byteCount)) := by
        rw [appendedOne, hget]
        simp only [hpipe, if_neg hreaders]
      obtain ⟨hcounted, hgrown⟩ := @ih (task.setPipe idx (some q)) q _ _ _ hget
        (Function.update_self _ _ _) (hq.symm ▸ hreaders) hrun
      rw [happended]
      refine ⟨Counted.cons ?_, fun ha => ?_⟩
      · rw [show pipeBufSize - p.byteCount - min len (pipeBufSize - p.byteCount) =
          pipeBufSize - q.byteCount by omega]
        exact hcounted
      · obtain ⟨hone, ha'⟩ := hcontents ha (by omega)
        obtain ⟨q', hq', hall⟩ := hgrown ha'
        exact ⟨q', hq', by rw [hall, hone, List.append_assoc]; rfl⟩

/-- A pipe that nobody reads takes nothing. -/
theorem writevLoop_broken {total : Word} {iovs : List (Word × ℕ)}
    {answers : ℕ → ℕ → Word} {r : Gathered}
    (hget : task.fdTable.get fd = some (.pipeWrite idx))
    (hbroken : ∀ p, task.pipes idx = some p → p.readers = 0)
    (h : writevLoop mem fd task total iovs answers = .ok r) :
    r.appended = [] ∧ taken r.pieces = 0 ∧ (r.ret = total ∨ r.ret.toInt < 0) := by
  induction iovs generalizing total answers r with
  | nil =>
    obtain rfl := Except.ok.inj h
    exact ⟨rfl, rfl, .inl rfl⟩
  | cons v iovs ih =>
    obtain ⟨base, len⟩ := v
    rw [writevLoop] at h
    by_cases hlen : len = 0
    · rw [if_pos hlen] at h
      obtain ⟨r', hrun, rfl⟩ := Run.map_eq_ok.mp h
      obtain ⟨hnil, hzero, hret⟩ := ih hrun
      exact ⟨hnil, by rw [Gathered.cons, taken_cons, hzero]; rfl, hret⟩
    · rw [if_neg hlen] at h
      obtain ⟨o, hwrite, h⟩ := Run.bind_eq_ok.mp h
      obtain ⟨e, he⟩ := sysWrite_broken hget hbroken hwrite
      rw [he, Option.getD_some, if_pos (errno_neg e)] at h
      obtain rfl := Except.ok.inj h
      exact ⟨rfl, rfl, .inr (errno_neg e)⟩

/-- A pipe is always written right. -/
theorem writev_right_of_pipe {iov : Word} {iovcnt : ℕ} {answers : ℕ → ℕ → Word}
    (hget : task.fdTable.get fd = some (.pipeWrite idx)) :
    WritevRight mem task fd iov iovcnt answers := by
  intro r hrun
  by_cases hlive : ∃ p, task.pipes idx = some p ∧ p.readers ≠ 0
  · obtain ⟨p, hpipe, hreaders⟩ := hlive
    obtain ⟨h, -⟩ := writevLoop_pipe hget hpipe hreaders hrun
    have hroom := h.room
    obtain ⟨hnonneg, hbytes⟩ := right_of_count (by rw [h.ret, zero_add]) h.all h.within h.appended
      h.gapless (by unfold pipeBufSize at hroom; omega)
    exact ⟨fun _ => hbytes, fun _ => hnonneg⟩
  · obtain ⟨hnil, hzero, hret⟩ := writevLoop_broken hget (fun p hp => by
      by_contra hne
      exact hlive ⟨p, hp, hne⟩) hrun
    refine ⟨fun hnonneg => ?_, fun hne => absurd hnil hne⟩
    rcases hret with hret | hneg
    · rw [hret, hnil, positions_of_taken hzero]
      exact ⟨rfl, rfl⟩
    · omega

end Pipes

/-! ## When the call is right -/

/-- The buffers that a console takes whole but for the last: behind one of more than 4096 bytes
only empty ones follow, and the bytes can be counted. -/
def Capped (iovs : List (Word × ℕ)) : Prop :=
  (iovs.Pairwise fun u v => u.2 ≤ 4096 ∨ v.2 = 0) ∧
    (iovs.map fun v => min v.2 4096).sum < 2 ^ 63

instance (iovs : List (Word × ℕ)) : Decidable (Capped iovs) := by
  unfold Capped
  infer_instance

variable (mem)

/-- When `sys_writev` does what it promises, by the kind of the descriptor. -/
def WritevPlain (task : TaskStruct) (fd : ℕ) (iov : Word) (iovcnt : ℕ) (answers : ℕ → ℕ → Word) :
    Prop :=
  match task.fdTable.get fd with
  | some .console => fd = 0 ∨ Capped (iovecs mem iov iovcnt)
  | some (.file _) => Gatherable (outcomes mem task fd (iovecs mem iov iovcnt) answers)
  | _ => True

variable {mem}

section Kinds

variable {task : TaskStruct} {fd : ℕ}

theorem outcomes_of_console (hget : task.fdTable.get fd = some .console) (hfd : fd ≠ 0)
    (iovs : List (Word × ℕ)) (answers : ℕ → ℕ → Word) :
    outcomes mem task fd iovs answers =
      iovs.map fun v => (copyFrom mem v.1 v.2, .ok (min v.2 4096)) := by
  induction iovs generalizing answers with
  | nil => rfl
  | cons v iovs ih =>
    obtain ⟨base, len⟩ := v
    rw [outcomes, ih, List.map_cons, outcome, hget]
    by_cases hlen : len = 0
    · rw [if_pos hlen, hlen, Nat.zero_min]
    · simp only [if_neg hlen, if_neg hfd]

theorem gatherable_console (hget : task.fdTable.get fd = some .console) (hfd : fd ≠ 0)
    (iovs : List (Word × ℕ)) (answers : ℕ → ℕ → Word) :
    Gatherable (outcomes mem task fd iovs answers) ↔ Capped iovs := by
  rw [outcomes_of_console hget hfd, Gatherable, untilError_map_ok]
  show Gapless _ ∧ taken _ < 2 ^ 63 ↔ _
  rw [Gapless, List.pairwise_map, taken, List.map_map, Capped]
  refine and_congr (List.pairwise_iff_get.trans (Iff.trans ?_ List.pairwise_iff_get.symm)) Iff.rfl
  refine forall_congr' fun i => forall_congr' fun j => forall_congr' fun _ => ?_
  rw [length_copyFrom]
  omega

/-- Standard input and descriptors that cannot be written to refuse every write. -/
theorem outcome_refused (hfile : ∀ fid, task.fdTable.get fd ≠ some (.file fid))
    (hconsole : task.fdTable.get fd = some .console → fd = 0) {base : Word} {len n : ℕ}
    {answers : ℕ → Word} (h : outcome mem task fd base len answers = .ok n) : n = 0 := by
  unfold outcome at h
  split at h
  · exact (Except.ok.inj h).symm
  · split at h
    · rename_i hget
      rw [if_pos (hconsole hget)] at h
      cases h
    · rename_i fid hget
      exact absurd hget (hfile fid)
    · cases h

/-- Then nothing is written. -/
theorem gatherable_of_refused (hfile : ∀ fid, task.fdTable.get fd ≠ some (.file fid))
    (hconsole : task.fdTable.get fd = some .console → fd = 0) (iovs : List (Word × ℕ))
    (answers : ℕ → ℕ → Word) : Gatherable (outcomes mem task fd iovs answers) := by
  have hzero : taken (untilError (outcomes mem task fd iovs answers)).1 = 0 := by
    induction iovs generalizing answers with
    | nil => rfl
    | cons v iovs ih =>
      obtain ⟨base, len⟩ := v
      rw [outcomes]
      cases hout : outcome mem task fd base len (answers 0) with
      | error e => rw [untilError, taken_nil]
      | ok n => rw [untilError, taken_cons, outcome_refused hfile hconsole hout, ih]
  rw [Gatherable]
  generalize untilError (outcomes mem task fd iovs answers) = ps at hzero
  obtain ⟨ps, _ | e⟩ := ps
  · refine ⟨?_, ?_⟩
    · exact List.pairwise_of_forall_mem_list fun p _ q hq => .inr (taken_eq_zero_iff.mp hzero q hq)
    · show taken ps < 2 ^ 63
      rw [hzero]
      decide
  · exact hzero

end Kinds

/-- **A gathered write is a prefix.**  `sys_writev` returns the number of the bytes it wrote, and
these are the first ones of its buffers, just when no buffer is cut short before the last: always
on a pipe, on a console when only the last buffer is over 4096 bytes, and on a file when its
server takes the others whole and does not fail behind bytes that were written. -/
theorem writev_right_iff (task : TaskStruct) (fd : ℕ) (iov : Word) (iovcnt : ℕ)
    (answers : ℕ → ℕ → Word) :
    WritevRight mem task fd iov iovcnt answers ↔ WritevPlain mem task fd iov iovcnt answers := by
  unfold WritevPlain
  rcases hget : task.fdTable.get fd with _ | kind
  · rw [writev_right_iff_gatherable fun idx => by rw [hget]; nofun]
    exact iff_of_true (gatherable_of_refused (by rw [hget]; nofun) (by rw [hget]; nofun) _ _) trivial
  · cases kind with
    | console =>
      rw [writev_right_iff_gatherable fun idx => by rw [hget]; nofun]
      by_cases hfd : fd = 0
      · exact iff_of_true (gatherable_of_refused (by rw [hget]; nofun) (fun _ => hfd) _ _) (.inl hfd)
      · rw [gatherable_console hget hfd]
        exact ⟨.inr, fun h => h.resolve_left hfd⟩
    | file fid => exact writev_right_iff_gatherable fun idx => by rw [hget]; nofun
    | pipeWrite idx => exact iff_of_true (writev_right_of_pipe hget) trivial
    | free | pipeRead idx =>
      rw [writev_right_iff_gatherable fun idx => by rw [hget]; nofun]
      exact iff_of_true (gatherable_of_refused (by rw [hget]; nofun) (by rw [hget]; nofun) _ _)
        trivial

end Call

/-- An array of two buffers at address 0, the second of one byte and the first of one or of
8192. -/
def twoBuffers (long : Bool) : Mem := fun a =>
  if a = 24 then 1 else if a = 9 ∧ long then 0x20 else if a = 8 ∧ !long then 1 else 0

/-- A task that has a file open as descriptor 3. -/
def withFile : TaskStruct :=
  { TaskStruct.new 0 with fdTable := ((FdTable.new.allocFile 1 0).getD (3, FdTable.new)).2 }

set_option maxRecDepth 4000 in
/-- The console leaves a gap behind the first 4096 bytes of the long buffer, and on a file whose
server takes the first byte and then fails, the error hides that byte. -/
theorem writev_leaves_gap :
    ¬ WritevRight (twoBuffers true) (TaskStruct.new 0) 1 0 2 (fun _ _ => 0) ∧
      ¬ WritevRight (twoBuffers false) withFile 3 0 2
        (fun i _ => if i = 0 then 1 else BitVec.ofInt 64 (-5)) := by
  have hconsole : (TaskStruct.new 0).fdTable.get 1 = some .console := by decide
  have hfile : withFile.fdTable.get 3 = some (.file 1) := by decide
  refine ⟨?_, ?_⟩
  · rw [writev_right_iff_gatherable fun idx => by rw [hconsole]; nofun,
      gatherable_console hconsole (by decide)]
    decide
  · have hwrites : untilError (outcomes (twoBuffers false) withFile 3
        (iovecs (twoBuffers false) 0 2) (fun i _ => if i = 0 then 1 else BitVec.ofInt 64 (-5))) =
        ([([0], 1)], some (BitVec.ofInt 64 (-5))) := rfl
    rw [writev_right_iff_gatherable fun idx => by rw [hfile]; nofun, Gatherable, hwrites]
    decide

end QuackOS.Linux
