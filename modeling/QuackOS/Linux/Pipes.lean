import QuackOS.Lib.Run
import QuackOS.Linux.Files

/-!
# Reference counts of pipes

`Pipe.readers` and `Pipe.writers` are meant to count the descriptors of each end.  `sys_pipe2`
and `sys_close` keep them; `sys_dup` and `sys_dup3` copy and drop descriptors without them.

* `PipeCounts` — the counts are exact and a slot is empty when nothing refers to it;
* `PipesOk` — the invariant, with the state of the rings;
* `pipeCounts_run` — **the counts stay exact, and no decrement underflows, in every run that
  neither copies an end of a pipe nor drops one by `sys_dup3`**;
* `dup_close_underflows` — a run that does.
-/

namespace QuackOS.Linux

open Bytes FdTable

/-- The counts are those of the descriptors, and a pipe is gone exactly when no descriptor refers
to it. -/
structure PipeCounts (t : TaskStruct) : Prop where
  exact : ∀ i < maxPipes, ∀ p, t.pipes i = some p →
    p.readers = t.fdTable.refs (.pipeRead i) ∧ p.writers = t.fdTable.refs (.pipeWrite i)
  gone_iff : ∀ i < maxPipes, t.pipes i = none ↔
    ∀ fd < maxFds, (t.fdTable fd).kind ≠ .pipeRead i ∧ (t.fdTable fd).kind ≠ .pipeWrite i

/-- Is this an end of a pipe? -/
def FdKind.isPipe : FdKind → Bool
  | .pipeRead _ | .pipeWrite _ => true
  | _ => false

/-- The table has no free descriptor. -/
def FdTable.Full (t : FdTable) : Prop := ∀ fd < maxFds, (t fd).kind ≠ .free

/-- The call does not copy an end of a pipe to a new descriptor, and does not overwrite one by
`sys_dup3`. -/
def KeepsEnds (t : TaskStruct) : FdCall → Prop
  | .dup oldfd => ∀ k, t.fdTable.get oldfd = some k → k.isPipe = true → t.fdTable.Full
  | .dup3 oldfd newfd => ∀ k, oldfd ≠ newfd → t.fdTable.get oldfd = some k →
    (k.isPipe = true → t.fdTable.Full ∧ t.fdTable.get newfd = none) ∧
      ∀ k', t.fdTable.get newfd = some k' → k'.isPipe = false
  | _ => True

/-! ## The invariant -/

/-- The positions of a ring are in the buffer and it holds no more than fits. -/
structure Pipe.RingOk (p : Pipe) : Prop where
  read_lt : p.readPos < pipeBufSize
  write_lt : p.writePos < pipeBufSize
  count_le : p.byteCount ≤ pipeBufSize

/-- A slot of the pipe table to whose ends `r` and `w` descriptors refer. -/
def SlotOk (r w : ℕ) : Option Pipe → Prop
  | none => r = 0 ∧ w = 0
  | some p => p.readers = r ∧ p.writers = w ∧ 0 < r + w ∧ p.RingOk

/-- Every slot of the pipe table agrees with the descriptors. -/
structure PipesOk (t : TaskStruct) : Prop where
  slot : ∀ i, SlotOk (t.fdTable.refs (.pipeRead i)) (t.fdTable.refs (.pipeWrite i)) (t.pipes i)
  range : ∀ i, maxPipes ≤ i → t.pipes i = none

section Invariant

variable {t t' : TaskStruct} {i idx : ℕ} {k : FdKind} {p : Pipe} {m : Mem}

theorem PipesOk.counts (h : PipesOk t) : PipeCounts t := by
  constructor
  · intro i _ p hp
    have hs := h.slot i
    rw [hp] at hs
    exact ⟨hs.1, hs.2.1⟩
  · intro i _
    have hs := h.slot i
    constructor
    · intro hnone fd hfd
      rw [hnone] at hs
      exact ⟨refs_eq_zero.mp hs.1 fd hfd, refs_eq_zero.mp hs.2 fd hfd⟩
    · intro hfds
      have hr := refs_eq_zero.mpr fun fd hfd => (hfds fd hfd).1
      have hw := refs_eq_zero.mpr fun fd hfd => (hfds fd hfd).2
      cases hp : t.pipes i with
      | none => rfl
      | some p =>
        rw [hp, hr, hw] at hs
        exact absurd hs.2.2.1 (by omega)

theorem pipesOk_new (brk : Word) : PipesOk (TaskStruct.new brk) := by
  have hrefs : ∀ k : FdKind, k ≠ .free → k ≠ .console → FdTable.new.refs k = 0 := by
    intro k hfree hconsole
    refine refs_eq_zero.mpr fun fd _ => ?_
    unfold FdTable.new
    split
    · exact hconsole.symm
    · exact hfree.symm
  exact ⟨fun i => ⟨hrefs _ (by simp) (by simp), hrefs _ (by simp) (by simp)⟩, fun _ _ => rfl⟩

/-- A call that leaves the pipes and the number of descriptors of each end alone. -/
theorem PipesOk.congr (h : PipesOk t) (hp : t'.pipes = t.pipes)
    (hr : ∀ k, k.isPipe = true → t'.fdTable.refs k = t.fdTable.refs k) : PipesOk t' := by
  refine ⟨fun i => ?_, fun i hi => ?_⟩
  · rw [hp, hr _ rfl, hr _ rfl]
    exact h.slot i
  · rw [hp]
    exact h.range i hi

/-- A call that changes the ring of a pipe only. -/
theorem PipesOk.setRing (h : PipesOk t) {p' : Pipe} (hp : t.pipes idx = some p)
    (hr : p'.readers = p.readers) (hw : p'.writers = p.writers) (hring : p'.RingOk) :
    PipesOk (t.setPipe idx (some p')) := by
  refine ⟨fun i => ?_, fun i hi => ?_⟩
  · show SlotOk _ _ (Function.update t.pipes idx (some p') i)
    by_cases hi : i = idx
    · subst hi
      have hs := h.slot i
      rw [hp] at hs
      rw [Function.update_self]
      exact ⟨hr.trans hs.1, hw.trans hs.2.1, hs.2.2.1, hring⟩
    · rw [Function.update_of_ne hi]
      exact h.slot i
  · show Function.update t.pipes idx (some p') i = none
    have hne : i ≠ idx := by
      rintro rfl
      rw [h.range i hi] at hp
      cases hp
    rw [Function.update_of_ne hne]
    exact h.range i hi

/-- A descriptor of an end stands for a pipe in the table. -/
theorem PipesOk.pipe_of_get (h : PipesOk t) {fd : ℕ}
    (hk : t.fdTable.get fd = some (.pipeRead idx) ∨ t.fdTable.get fd = some (.pipeWrite idx)) :
    ∃ p, t.pipes idx = some p ∧ t.pipe idx = .ok (some p) ∧ p.RingOk := by
  have hs := h.slot idx
  cases hp : t.pipes idx with
  | none =>
    rw [hp] at hs
    rcases hk with hk | hk
    · obtain ⟨hlt, hkind, -⟩ := get_eq_some.mp hk
      exact absurd hkind (refs_eq_zero.mp hs.1 fd hlt)
    · obtain ⟨hlt, hkind, -⟩ := get_eq_some.mp hk
      exact absurd hkind (refs_eq_zero.mp hs.2 fd hlt)
  | some p =>
    rw [hp] at hs
    have hlt : idx < maxPipes := by
      by_contra hge
      rw [h.range idx (by omega)] at hp
      cases hp
    exact ⟨p, rfl, by rw [TaskStruct.pipe, if_pos hlt, hp], hs.2.2.2⟩

end Invariant

/-! ## Reading and writing -/

section Rings

variable {p : Pipe} {n : ℕ}

/-- Taking out as many bytes as there are. -/
theorem Pipe.takeMany_ok (hp : p.RingOk) (hn : n ≤ p.byteCount) :
    ∃ bs p', p.takeMany n = .ok (bs, p') ∧ p'.RingOk ∧ p'.readers = p.readers ∧
      p'.writers = p.writers := by
  induction n generalizing p with
  | zero => exact ⟨[], p, rfl, hp, rfl, rfl⟩
  | succ n ih =>
    have hread := hp.read_lt
    have hcount := hp.count_le
    have htake : p.take = .ok (p.buf p.readPos,
        { p with readPos := (p.readPos + 1) % pipeBufSize, byteCount := p.byteCount - 1 }) := by
      rw [Pipe.take, if_neg (by omega), if_neg (by omega)]
    have hnext : ({ p with
        readPos := (p.readPos + 1) % pipeBufSize
        byteCount := p.byteCount - 1 } : Pipe).RingOk :=
      ⟨Nat.mod_lt _ (by decide), hp.write_lt, by show p.byteCount - 1 ≤ pipeBufSize; omega⟩
    obtain ⟨bs, p', hmany, hring, hr, hw⟩ := ih hnext (by show n ≤ p.byteCount - 1; omega)
    refine ⟨p.buf p.readPos :: bs, p', ?_, hring, hr, hw⟩
    simp only [Pipe.takeMany, htake, bind, Except.bind, hmany]
    rfl

/-- Putting in as many bytes as fit. -/
theorem Pipe.putMany_ok {bs : List UInt8} (hp : p.RingOk)
    (hn : p.byteCount + bs.length ≤ pipeBufSize) :
    ∃ p', bs.foldlM Pipe.put p = .ok p' ∧ p'.RingOk ∧ p'.readers = p.readers ∧
      p'.writers = p.writers := by
  induction bs generalizing p with
  | nil => exact ⟨p, rfl, hp, rfl, rfl⟩
  | cons b bs ih =>
    have hwrite := hp.write_lt
    rw [List.length_cons] at hn
    have hput : p.put b = .ok { p with
        buf := Function.update p.buf p.writePos b
        writePos := (p.writePos + 1) % pipeBufSize
        byteCount := p.byteCount + 1 } := by
      rw [Pipe.put, if_neg (by omega)]
    have hnext : ({ p with
        buf := Function.update p.buf p.writePos b
        writePos := (p.writePos + 1) % pipeBufSize
        byteCount := p.byteCount + 1 } : Pipe).RingOk :=
      ⟨hp.read_lt, Nat.mod_lt _ (by decide), by show p.byteCount + 1 ≤ pipeBufSize; omega⟩
    obtain ⟨p', hmany, hring, hr, hw⟩ :=
      ih hnext (by show p.byteCount + 1 + bs.length ≤ pipeBufSize; omega)
    refine ⟨p', ?_, hring, hr, hw⟩
    rw [List.foldlM_cons, hput]
    exact hmany

end Rings

section Steps

variable {t : TaskStruct} {m : Mem} {fd idx : ℕ} {bufPtr : Word} {count : ℕ} {w : World}

/-- What a call must leave behind. -/
abbrev StepOk (r : Except Panic Outcome) : Prop :=
  Run.Ends r (fun o => PipesOk o.task) (fun e => e ≠ .underflow)

theorem stepOk_ite {c : Prop} [Decidable c] {o : Outcome} (h : PipesOk o.task) :
    StepOk (if c then .error .outOfRange else .ok o) := by
  split
  · exact ⟨(fun _ hs => nomatch hs), fun e he => Except.error.inj he ▸ nofun⟩
  · exact Run.ends_ok h

theorem pipeRead_ok (h : PipesOk t) (hk : t.fdTable.get fd = some (.pipeRead idx)) :
    StepOk (pipeRead t m idx bufPtr count) := by
  obtain ⟨p, hp, hpipe, hring⟩ := h.pipe_of_get (.inl hk)
  by_cases hzero : p.byteCount = 0
  · have : pipeRead t m idx bufPtr count = .ok ⟨some 0, t, m⟩ := by
      simp only [pipeRead, hpipe, bind, Except.bind, hzero, if_true]
      rfl
    rw [this]
    exact Run.ends_ok h
  · obtain ⟨bs, p', hmany, hring', hr, hw⟩ := p.takeMany_ok hring (Nat.min_le_right count p.byteCount)
    have : pipeRead t m idx bufPtr count = .ok ⟨some (BitVec.ofNat 64 (min count p.byteCount)),
        t.setPipe idx (some p'), copyOut m bufPtr bs⟩ := by
      simp only [pipeRead, hpipe, bind, Except.bind, hzero, if_false, hmany]
      rfl
    rw [this]
    exact Run.ends_ok (h.setRing hp hr hw hring')

theorem pipeWrite_ok (h : PipesOk t) (hk : t.fdTable.get fd = some (.pipeWrite idx)) :
    StepOk (pipeWrite t m idx bufPtr count) := by
  obtain ⟨p, hp, hpipe, hring⟩ := h.pipe_of_get (.inr hk)
  by_cases hzero : p.readers = 0
  · have : pipeWrite t m idx bufPtr count = .ok ⟨some (Errno.word .EPIPE), t, m⟩ := by
      simp only [pipeWrite, hpipe, bind, Except.bind, hzero, if_true]
      rfl
    rw [this]
    exact Run.ends_ok h
  · have hcount := hring.count_le
    have hlen : (copyFrom m bufPtr (min count (pipeBufSize - p.byteCount))).length =
        min count (pipeBufSize - p.byteCount) := by
      simp [copyFrom, copyIn]
    obtain ⟨p', hmany, hring', hr, hw⟩ := @Pipe.putMany_ok p
      (copyFrom m bufPtr (min count (pipeBufSize - p.byteCount))) hring (by omega)
    have : pipeWrite t m idx bufPtr count =
        .ok ⟨some (BitVec.ofNat 64 (min count (pipeBufSize - p.byteCount))),
          t.setPipe idx (some p'), m⟩ := by
      simp only [pipeWrite, hpipe, bind, Except.bind, hzero, if_false,
        if_neg (Nat.not_lt.mpr hcount), hmany]
      rfl
    rw [this]
    exact Run.ends_ok (h.setRing hp hr hw hring')

theorem sysRead_ok (h : PipesOk t) : StepOk (sysRead t m fd bufPtr count w) := by
  unfold sysRead
  split
  · split
    · exact Run.ends_ok h
    · split
      · refine Run.ends_ok ?_
        unfold consoleReadCanonical
        split
        · exact h.congr rfl fun _ _ => rfl
        · split
          · exact h
          · exact h
          · exact h
          · exact h.congr rfl fun _ _ => rfl
      · unfold consoleReadRaw
        split
        · exact Run.ends_ok h
        · exact Run.ends_ok h
        · exact stepOk_ite h
  · split
    · exact Run.ends_ok h
    · exact Run.ends_ok h
  · exact pipeRead_ok h ‹_›
  · exact Run.ends_ok h

theorem sysWrite_ok (h : PipesOk t) : StepOk (sysWrite t m fd bufPtr count w) := by
  unfold sysWrite
  split
  · split
    · exact Run.ends_ok h
    · split
      · exact Run.ends_ok h
      · exact Run.ends_ok h
  · split
    · exact Run.ends_ok h
    · exact Run.ends_ok h
  · exact pipeWrite_ok h ‹_›
  · exact Run.ends_ok h

end Steps

/-! ## Making, copying and dropping descriptors -/

/-- The kind of a descriptor of an end. -/
def PipeEnd.kind : PipeEnd → ℕ → FdKind
  | .read, idx => .pipeRead idx
  | .write, idx => .pipeWrite idx

section Descriptors

variable {t : TaskStruct} {m : Mem} {fd idx : ℕ} {k kind : FdKind}

/-- The slot of the end that a call lets go of. -/
theorem slotOk_drop {r w r' w' : ℕ} {p : Pipe} (e : PipeEnd) (h : SlotOk r w (some p))
    (hr : r' + (if e.kind idx = .pipeRead idx then 1 else 0) = r)
    (hw : w' + (if e.kind idx = .pipeWrite idx then 1 else 0) = w) :
    ∃ p', p.drop e = .ok p' ∧
      SlotOk r' w' (if p'.readers = 0 ∧ p'.writers = 0 then none else some p') := by
  obtain ⟨hreaders, hwriters, -, hring⟩ := h
  have hdrop : ∃ p', p.drop e = .ok p' ∧ p'.readers = r' ∧ p'.writers = w' ∧ p'.RingOk := by
    cases e with
    | read =>
      simp only [PipeEnd.kind, if_true, reduceCtorEq, if_false, Nat.add_zero] at hr hw
      refine ⟨{ p with readers := p.readers - 1 }, ?_, ?_, hwriters.trans hw.symm,
        hring.read_lt, hring.write_lt, hring.count_le⟩
      · rw [Pipe.drop, if_neg (by omega)]
      · show p.readers - 1 = r'
        omega
    | write =>
      simp only [PipeEnd.kind, if_true, reduceCtorEq, if_false, Nat.add_zero] at hr hw
      refine ⟨{ p with writers := p.writers - 1 }, ?_, hreaders.trans hr.symm, ?_,
        hring.read_lt, hring.write_lt, hring.count_le⟩
      · rw [Pipe.drop, if_neg (by omega)]
      · show p.writers - 1 = w'
        omega
  obtain ⟨p', hp', hr', hw', hring'⟩ := hdrop
  refine ⟨p', hp', ?_⟩
  split
  · exact ⟨by omega, by omega⟩
  · exact ⟨hr', hw', by omega, hring'⟩

theorem ne_free_of_isPipe (h : k.isPipe = true) : k ≠ .free := by
  rintro rfl
  cases h

/-- Closing a descriptor of an end. -/
theorem closePipe_ok (h : PipesOk t) (e : PipeEnd) (hk : t.fdTable.get fd = some (e.kind idx)) :
    ∃ t', closePipe { t with fdTable := Function.update t.fdTable fd ⟨.free, 0⟩ } idx e = .ok t' ∧
      PipesOk t' := by
  have hget : t.fdTable.get fd = some (.pipeRead idx) ∨ t.fdTable.get fd = some (.pipeWrite idx) := by
    cases e with
    | read => exact .inl hk
    | write => exact .inr hk
  obtain ⟨p, hp, hpipe, -⟩ := h.pipe_of_get hget
  have hrefs : ∀ k, k.isPipe = true →
      FdTable.refs (Function.update t.fdTable fd ⟨.free, 0⟩) k + (if e.kind idx = k then 1 else 0) =
        t.fdTable.refs k :=
    fun k hpipe => refs_free hk (ne_free_of_isPipe hpipe)
  have hslot := h.slot idx
  rw [hp] at hslot
  obtain ⟨p', hdrop, hslot'⟩ := slotOk_drop e hslot (hrefs _ rfl) (hrefs _ rfl)
  refine ⟨TaskStruct.setPipe { t with fdTable := Function.update t.fdTable fd ⟨.free, 0⟩ } idx
    (if p'.readers = 0 ∧ p'.writers = 0 then none else some p'), ?_, ?_⟩
  · have hpipe' : TaskStruct.pipe { t with fdTable := Function.update t.fdTable fd ⟨.free, 0⟩ } idx =
        .ok (some p) := hpipe
    simp only [closePipe, hpipe', bind, Except.bind, hdrop]
    rfl
  · refine ⟨fun i => ?_, fun i hi => ?_⟩
    · show SlotOk _ _ (Function.update t.pipes idx _ i)
      by_cases hi : i = idx
      · subst hi
        rw [Function.update_self]
        exact hslot'
      · rw [Function.update_of_ne hi]
        -- the ends of the other pipes keep their descriptors
        have hr := hrefs (.pipeRead i) rfl
        have hw := hrefs (.pipeWrite i) rfl
        have hner : e.kind idx ≠ .pipeRead i := by
          cases e with
          | read => exact fun heq => hi (FdKind.pipeRead.inj heq).symm
          | write => exact nofun
        have hnew : e.kind idx ≠ .pipeWrite i := by
          cases e with
          | read => exact nofun
          | write => exact fun heq => hi (FdKind.pipeWrite.inj heq).symm
        rw [if_neg hner, Nat.add_zero] at hr
        rw [if_neg hnew, Nat.add_zero] at hw
        show SlotOk (FdTable.refs (Function.update t.fdTable fd ⟨.free, 0⟩) _)
          (FdTable.refs (Function.update t.fdTable fd ⟨.free, 0⟩) _) _
        rw [hr, hw]
        exact h.slot i
    · show Function.update t.pipes idx _ i = none
      have hne : i ≠ idx := by
        rintro rfl
        rw [h.range i hi] at hp
        cases hp
      rw [Function.update_of_ne hne]
      exact h.range i hi

theorem sysClose_ok (h : PipesOk t) :
    Run.Ends (sysClose t m fd) (fun o => PipesOk o.1.task) (fun e => e ≠ .underflow) := by
  unfold sysClose closeKind
  cases hk : t.fdTable.get fd with
  | none => exact Run.ends_ok h
  | some kind =>
    have hother : kind.isPipe = false →
        PipesOk { t with fdTable := Function.update t.fdTable fd ⟨.free, 0⟩ } := by
      intro hpipe
      refine h.congr rfl fun k hk' => ?_
      have := refs_free hk (ne_free_of_isPipe hk')
      rwa [if_neg (by rintro rfl; rw [hk'] at hpipe; cases hpipe)] at this
    cases kind with
    | free => exact Run.ends_ok (hother rfl)
    | console => exact Run.ends_ok (hother rfl)
    | file fid => exact Run.ends_ok (hother rfl)
    | pipeRead idx =>
      obtain ⟨t', ht', hok⟩ := closePipe_ok h .read hk
      simp only [ht', bind, Except.bind]
      exact Run.ends_ok hok
    | pipeWrite idx =>
      obtain ⟨t', ht', hok⟩ := closePipe_ok h .write hk
      simp only [ht', bind, Except.bind]
      exact Run.ends_ok hok

/-- A new descriptor that is no end of a pipe. -/
theorem PipesOk.allocKind (h : PipesOk t) {flags : BitVec 32} {table : FdTable}
    (ha : t.fdTable.allocKind kind flags = some (fd, table)) (hk : kind.isPipe = false) :
    PipesOk { t with fdTable := table } := by
  refine h.congr rfl fun k hk' => ?_
  rw [refs_allocKind ha (ne_free_of_isPipe hk'), if_neg, Nat.add_zero]
  rintro rfl
  rw [hk'] at hk
  cases hk

theorem sysOpenat_ok (h : PipesOk t) {flags : Word} {opened : Except ℤ FsFid} :
    PipesOk (sysOpenat t m flags opened).1.task := by
  unfold sysOpenat
  split
  · exact h
  · split
    · exact h.allocKind ‹_› rfl
    · exact h

theorem sysDup_ok (h : PipesOk t) (hs : KeepsEnds t (.dup fd)) : PipesOk (sysDup t m fd).task := by
  unfold sysDup
  split
  · exact h
  · rename_i kind hk
    split
    · rename_i newfd table ha
      refine h.allocKind ha ?_
      by_contra hpipe
      -- a full table has no new descriptor
      have hfull := hs kind hk (by simpa using hpipe)
      obtain ⟨hlt, hfree, -⟩ := allocKind_eq_some ha
      exact hfull newfd hlt hfree
    · exact h

/-- Dropping a descriptor that is no end of a pipe. -/
theorem PipesOk.close (h : PipesOk t)
    (hk : ∀ k, t.fdTable.get fd = some k → k.isPipe = false) :
    PipesOk { t with fdTable := (t.fdTable.close fd).2 } := by
  unfold FdTable.close
  cases hget : t.fdTable.get fd with
  | none => exact h
  | some kind =>
    refine h.congr rfl fun k hk' => ?_
    have := refs_free hget (ne_free_of_isPipe hk')
    rwa [if_neg (by rintro rfl; rw [hk _ hget] at hk'; cases hk')] at this

theorem sysDup3_ok (h : PipesOk t) {newfd : ℕ} (hs : KeepsEnds t (.dup3 fd newfd)) :
    PipesOk (sysDup3 t m fd newfd).task := by
  unfold sysDup3
  split
  · exact h
  · rename_i hne
    split
    · exact h
    · rename_i kind hk
      obtain ⟨hold, hnew⟩ := hs kind hne hk
      have hclosed := h.close hnew
      show PipesOk { t with fdTable := _ }
      cases ha : (t.fdTable.close newfd).2.allocKind kind 0 with
      | none => exact hclosed
      | some r =>
        obtain ⟨i, table⟩ := r
        refine hclosed.allocKind ha ?_
        by_contra hpipe
        obtain ⟨hfull, hnone⟩ := hold (by simpa using hpipe)
        obtain ⟨hlt, hfree, -⟩ := allocKind_eq_some ha
        rw [FdTable.close, hnone] at hfree
        exact hfull i hlt hfree

theorem sysFcntl_ok (h : PipesOk t) {cmd arg : ℕ} : PipesOk (sysFcntl t m fd cmd arg).task := by
  unfold sysFcntl
  split
  · split
    · exact h
    · split
      · exact h
      · show PipesOk { t with fdTable := _ }
        cases ha : t.fdTable.allocKind (dupfdKind t.fdTable fd) 0 with
        | none => exact h
        | some r =>
          refine h.allocKind ha ?_
          unfold dupfdKind
          split <;> rfl
  · split
    · exact h
    · split
      · exact h
      · exact h

/-- A new pipe with a descriptor for each end. -/
theorem sysPipe2_ok (h : PipesOk t) {fdsPtr : Word} : PipesOk (sysPipe2 t m fdsPtr).task := by
  unfold sysPipe2
  cases hfree : Slots.firstFree maxPipes t.pipes with
  | none => exact h
  | some idx =>
    obtain ⟨hnone, hlt, -⟩ := Slots.firstFree_eq_some.mp hfree
    have hslot := h.slot idx
    rw [hnone] at hslot
    -- a slot that is filled and emptied again
    have hback : ∀ p, (t.setPipe idx p).setPipe idx none = t := by
      intro p
      simp only [TaskStruct.setPipe, Function.update_idem]
      rw [← hnone, Function.update_eq_self]
    have htable : (t.setPipe idx (some Pipe.new)).fdTable = t.fdTable := rfl
    dsimp only
    rw [htable]
    cases hr : t.fdTable.allocKind (.pipeRead idx) 0 with
    | none =>
      show PipesOk ((t.setPipe idx _).setPipe idx none)
      rw [hback]
      exact h
    | some r =>
      obtain ⟨readFd, table⟩ := r
      dsimp only
      cases hw : table.allocKind (.pipeWrite idx) 0 with
      | none =>
        obtain ⟨hltr, hfreer, rfl⟩ := allocKind_eq_some hr
        have hget : FdTable.get (Function.update t.fdTable readFd ⟨.pipeRead idx, 0⟩) readFd =
            some (.pipeRead idx) := get_eq_some.mpr ⟨hltr, by rw [Function.update_self], nofun⟩
        have hpipes : Function.update (Function.update t.pipes idx (some Pipe.new)) idx none =
            t.pipes := by
          rw [Function.update_idem, ← hnone, Function.update_eq_self]
        refine h.congr hpipes fun k hk => ?_
        have hk' := ne_free_of_isPipe hk
        have hclose : (FdTable.close (Function.update t.fdTable readFd ⟨.pipeRead idx, 0⟩) readFd).2 =
            Function.update (Function.update t.fdTable readFd ⟨.pipeRead idx, 0⟩) readFd
              ⟨.free, 0⟩ := by
          rw [FdTable.close, hget]
        show FdTable.refs (FdTable.close _ readFd).2 k = _
        rw [hclose]
        have h₁ := refs_free hget hk'
        have h₂ := refs_allocKind hr hk'
        omega
      | some r =>
        obtain ⟨writeFd, table'⟩ := r
        have hrefs : ∀ k, k.isPipe = true → table'.refs k = t.fdTable.refs k +
            (if .pipeRead idx = k then 1 else 0) + (if .pipeWrite idx = k then 1 else 0) := by
          intro k hk
          rw [refs_allocKind hw (ne_free_of_isPipe hk), refs_allocKind hr (ne_free_of_isPipe hk)]
        refine ⟨fun i => ?_, fun i hi => ?_⟩
        · show SlotOk (table'.refs _) (table'.refs _) (Function.update t.pipes idx (some Pipe.new) i)
          rw [hrefs _ rfl, hrefs _ rfl]
          by_cases hi : i = idx
          · subst hi
            rw [Function.update_self, hslot.1, hslot.2]
            simp only [if_true, reduceCtorEq, if_false]
            exact ⟨rfl, rfl, by omega, by decide, by decide, by decide⟩
          · rw [Function.update_of_ne hi]
            simp only [FdKind.pipeRead.injEq, FdKind.pipeWrite.injEq, reduceCtorEq,
              if_neg (Ne.symm hi), if_false, Nat.add_zero]
            exact h.slot i
        · show Function.update t.pipes idx (some Pipe.new) i = none
          rw [Function.update_of_ne (by omega)]
          exact h.range i hi

end Descriptors

/-! ## Runs -/

/-- One call of a run; nothing follows a panic. -/
def callStep (s : Except Panic (TaskStruct × Mem)) (c : FdCall) : Except Panic (TaskStruct × Mem) :=
  s.bind fun tm => (c.run tm.1 tm.2).map fun r => (r.1.task, r.1.mem)

/-- One call keeps the invariant. -/
theorem run_ok {t : TaskStruct} {m : Mem} {c : FdCall} (h : PipesOk t) (hs : KeepsEnds t c) :
    Run.Ends (c.run t m) (fun r => PipesOk r.1.task) (fun e => e ≠ .underflow) := by
  have hmap : ∀ r : Except Panic Outcome, StepOk r →
      Run.Ends (r.map fun o => (o, (none : Option FsFid))) (fun r => PipesOk r.1.task)
        (fun e => e ≠ .underflow) := by
    intro r hr
    cases r with
    | error e => exact ⟨(fun _ hs => nomatch hs), fun e' he => hr.error e' (by cases he; rfl)⟩
    | ok o => exact Run.ends_ok (hr.ok o rfl)
  cases c with
  | read fd bufPtr count w => exact hmap _ (sysRead_ok h)
  | write fd bufPtr count w => exact hmap _ (sysWrite_ok h)
  | openat flags opened => exact Run.ends_ok (sysOpenat_ok h)
  | close fd => exact sysClose_ok h
  | dup oldfd => exact Run.ends_ok (sysDup_ok h hs)
  | dup3 oldfd newfd => exact Run.ends_ok (sysDup3_ok h hs)
  | fcntl fd cmd arg => exact Run.ends_ok (sysFcntl_ok h)
  | pipe2 fdsPtr => exact Run.ends_ok (sysPipe2_ok h)

/-- **The counts of the pipes are exact in every state of a run, and none of them underflows,
when no call copies an end of a pipe or overwrites one.** -/
theorem pipeCounts_run (brk : Word) (mem : Mem) (calls : List FdCall)
    (hc : Run.Along callStep (fun s c => ∀ t m, s = .ok (t, m) → KeepsEnds t c)
      (.ok (TaskStruct.new brk, mem)) calls) :
    Run.Ends (Run.exec callStep (.ok (TaskStruct.new brk, mem)) calls)
      (fun s => PipeCounts s.1) (fun e => e ≠ .underflow) := by
  have hinv : Run.Ends (Run.exec callStep (.ok (TaskStruct.new brk, mem)) calls)
      (fun s => PipesOk s.1) (fun e => e ≠ .underflow) := by
    refine @Run.exec_invariant_along _ _ callStep _
      (fun s => Run.Ends s (fun s => PipesOk s.1) (fun e => e ≠ .underflow)) ?_ _
      (Run.ends_ok (pipesOk_new brk)) _ hc
    intro s c hs hkeeps
    cases s with
    | error e => exact hs
    | ok tm =>
      have hrun := @run_ok tm.1 tm.2 c (hs.ok tm rfl) (hkeeps tm.1 tm.2 rfl)
      simp only [callStep, Except.bind]
      cases hr : c.run tm.1 tm.2 with
      | error e => exact ⟨(fun _ h => nomatch h), fun e' he => hrun.error e' (by cases he; exact hr)⟩
      | ok r => exact Run.ends_ok (hrun.ok r hr)
  exact ⟨fun s hs => (hinv.ok s hs).counts, hinv.error⟩

/-- Nothing is on the console, and nothing in the files. -/
def quietWorld : World where
  consoleWrite := 0
  consoleRead := []
  fsRead := .ok []
  fsWrite := .ok 0

/-- A pipe is made, written to, read from and closed on both ends; a copy is made of the console. -/
def pipeCalls : List FdCall :=
  [.pipe2 0x1000, .write 4 0x2000 3 quietWorld, .read 3 0x3000 2 quietWorld, .dup 1, .close 3,
    .close 4]

theorem pipeCounts_run_pipe : Run.Ends
    (Run.exec callStep (.ok (TaskStruct.new 0, fun _ => 0)) pipeCalls)
    (fun s => PipeCounts s.1) (fun e => e ≠ .underflow) := by
  refine pipeCounts_run 0 (fun _ => 0) _ ⟨fun _ _ _ => trivial, fun _ _ _ => trivial,
    fun _ _ _ => trivial, ?_, fun _ _ _ => trivial, fun _ _ _ => trivial, trivial⟩
  intro t m h
  cases h
  intro k hk hpipe
  have hconsole : k = .console := (get_eq_some.mp hk).2.1.symm
  rw [hconsole] at hpipe
  cases hpipe

/-- **A copied end is counted once.**  After the copy and the original are closed the count of
the readers is below zero. -/
theorem dup_close_underflows :
    Run.exec callStep (.ok (TaskStruct.new 0, fun _ => 0))
      [.pipe2 0x1000, .dup 3, .close 3, .close 5] = .error .underflow := rfl

end QuackOS.Linux
