import Mathlib.Tactic.IntervalCases
import QuackOS.Linux.Files

/-!
# Duplicating descriptors

`sys_dup`, `sys_dup3` and `F_DUPFD` all put the copy at the lowest free descriptor, and the
last two report a number they have chosen otherwise.

* `DupCall.Right` — the call does what its answer says: the number is one the call may
  choose, refers to what the original refers to, and no other descriptor has changed;
* `DupCall.Plain` — the conditions under which the lowest free descriptor is the right one;
* `right_iff_plain` — the two are the same.
-/

namespace QuackOS.Linux

open Bytes

namespace FdTable

variable {t t' : FdTable} {kind : FdKind} {fd i : ℕ} {flags : BitVec 32}

theorem get_eq_none : t.get fd = none ↔ fd < maxFds → (t fd).kind = .free := by
  unfold get
  split
  · rename_i h
    exact iff_of_false (by simp) fun hfree => h.2 (hfree h.1)
  · rename_i h
    exact iff_of_true rfl fun hlt => by_contra fun hne => h ⟨hlt, hne⟩

theorem get_update_self (hfd : fd < maxFds) (hkind : kind ≠ .free) :
    get (Function.update t fd ⟨kind, flags⟩) fd = some kind :=
  get_eq_some.mpr ⟨hfd, by rw [Function.update_self], hkind⟩

theorem get_update_of_ne {e : FdEntry} (h : i ≠ fd) :
    get (Function.update t fd e) i = t.get i := by
  unfold get
  rw [Function.update_of_ne h]

/-- A closed descriptor refers to nothing; the others are not touched. -/
theorem get_close (t : FdTable) (fd i : ℕ) :
    (t.close fd).2.get i = if i = fd then none else t.get i := by
  unfold close
  split
  · by_cases h : i = fd
    · rw [if_pos h, h]
      refine get_eq_none.mpr fun _ => ?_
      dsimp only
      rw [Function.update_self]
    · rw [if_neg h]
      exact get_update_of_ne h
  · rename_i hnone
    by_cases h : i = fd
    · rw [if_pos h, h, hnone]
    · rw [if_neg h]

/-- The descriptor taken is the lowest free one. -/
theorem allocKind_first (h : t.allocKind kind flags = some (fd, t')) :
    fd < maxFds ∧ t.get fd = none ∧ (∀ i < fd, t.get i ≠ none) ∧
      t' = Function.update t fd ⟨kind, flags⟩ := by
  obtain ⟨hlt, hfree, rfl⟩ := allocKind_eq_some h
  refine ⟨hlt, get_eq_none.mpr fun _ => hfree, fun i hi hnone => ?_, rfl⟩
  obtain ⟨j, hj, heq⟩ := Option.map_eq_some_iff.mp h
  obtain ⟨rfl, -⟩ := Prod.mk.inj heq
  obtain ⟨-, -, hless⟩ := List.find?_range_eq_some.mp hj
  have := hless i hi
  simp [get_eq_none.mp hnone (by omega)] at this

/-- A table with a free entry gives its lowest one out. -/
theorem exists_allocKind (hfd : fd < maxFds) (hnone : t.get fd = none) (kind : FdKind)
    (flags : BitVec 32) :
    ∃ fd' t', t.allocKind kind flags = some (fd', t') ∧ fd' ≤ fd ∧ fd' < maxFds ∧
      t.get fd' = none ∧ (∀ i < fd', t.get i ≠ none) ∧
      t' = Function.update t fd' ⟨kind, flags⟩ := by
  obtain ⟨⟨fd', t'⟩, h⟩ := @allocKind_isSome t kind fd flags hfd (get_eq_none.mp hnone hfd)
  obtain ⟨hlt, hfree, hless, htable⟩ := allocKind_first h
  refine ⟨fd', t', h, ?_, hlt, hfree, hless, htable⟩
  by_contra hgt
  exact hless fd (by omega) hnone

end FdTable

/-- The calls that duplicate a descriptor, with the arguments as user space passes them. -/
inductive DupCall
  | dup (oldfd : Word)
  | dup3 (oldfd newfd flags : Word)
  | dupfd (fd arg : Word)

namespace DupCall

variable (task : TaskStruct) (mem : Mem)

/-- What the call does. -/
def run : DupCall → Outcome
  | .dup oldfd => sysDup task mem oldfd.toNat
  | .dup3 oldfd newfd _ => sysDup3 task mem oldfd.toNat newfd.toNat
  | .dupfd fd arg => sysFcntl task mem fd.toNat 0 arg.toNat

/-- The descriptor to duplicate. -/
def original : DupCall → ℕ
  | .dup oldfd => oldfd.toNat
  | .dup3 oldfd _ _ => oldfd.toNat
  | .dupfd fd _ => fd.toNat

/-- The numbers the call may choose. -/
def Number (n : Word) : DupCall → Prop
  | .dup _ => True
  | .dup3 _ newfd _ => n = newfd
  | .dupfd _ arg => arg.toNat ≤ n.toNat

/-- A call that returns a descriptor has made it refer to what the original refers to, has
chosen a number it may choose, and has left the other descriptors alone. -/
def Right (c : DupCall) : Prop :=
  ∀ n : Word, (c.run task mem).ret = some n → 0 ≤ n.toInt →
    (∃ kind, task.fdTable.get c.original = some kind ∧
      (c.run task mem).task.fdTable.get n.toNat = some kind) ∧
    c.Number n ∧
    ∀ fd, fd ≠ n.toNat → (c.run task mem).task.fdTable.get fd = task.fdTable.get fd

/-- The calls for which the lowest free descriptor is the right one.  `dup3` to a number with
a free descriptor below it, or past the table, and `F_DUPFD` with one below its bound, or for
an end of a pipe, are not among them; calls that return an error are. -/
def Plain (t : FdTable) : DupCall → Prop
  | .dup _ => True
  | .dup3 oldfd newfd _ =>
    oldfd = newfd ∨ t.get oldfd.toNat = none ∨ newfd.toInt < 0 ∨
      (newfd.toNat < maxFds ∧ ∀ i < newfd.toNat, t.get i ≠ none)
  | .dupfd fd arg =>
    t.get fd.toNat = none ∨ (∀ i, arg.toNat ≤ i → i < maxFds → t.get i ≠ none) ∨
      ((∀ i < arg.toNat, t.get i ≠ none) ∧
        ∀ idx, t.get fd.toNat ≠ some (.pipeRead idx) ∧ t.get fd.toNat ≠ some (.pipeWrite idx))

variable {task mem}

/-- A negative answer is not a descriptor. -/
theorem right_of_neg {c : DupCall} {n : Word} (h : (c.run task mem).ret = some n)
    (hneg : n.toInt < 0) : c.Right task mem := by
  intro n' hn hnonneg
  rw [h] at hn
  obtain rfl := Option.some.inj hn
  omega

theorem right_of_errno {c : DupCall} {e : Errno} (h : (c.run task mem).ret = some e.word) :
    c.Right task mem :=
  right_of_neg h (by cases e <;> decide)

/-- A call that puts its copy of `k` at `fd` and reports `n`, which is free in the table it
puts the copy into, is right when it puts the right thing there. -/
theorem right_iff_placed {c : DupCall} {t : FdTable} {k kind : FdKind} {fd : ℕ} {n : Word}
    (hrun : c.run task mem =
      .just { task with fdTable := Function.update t fd ⟨k, 0⟩ } mem n)
    (hn : 0 ≤ n.toInt) (hnumber : c.Number n)
    (hget : task.fdTable.get c.original = some kind) (hfd : fd < maxFds) (hk : k ≠ .free)
    (hfree : t.get n.toNat = none) (hrest : ∀ i, i ≠ n.toNat → t.get i = task.fdTable.get i) :
    c.Right task mem ↔ fd = n.toNat ∧ k = kind := by
  constructor
  · intro hright
    obtain ⟨⟨kind', horig, hafter⟩, -, -⟩ := hright n (by rw [hrun]; rfl) hn
    obtain rfl := Option.some.inj (horig.symm.trans hget)
    rw [hrun] at hafter
    have hplace : fd = n.toNat := by
      by_contra hne
      have hgone := (FdTable.get_update_of_ne (Ne.symm hne)).symm.trans hafter
      rw [hfree] at hgone
      cases hgone
    subst hplace
    exact ⟨rfl, Option.some.inj ((FdTable.get_update_self hfd hk).symm.trans hafter)⟩
  · rintro ⟨rfl, rfl⟩ n' hn' -
    rw [hrun] at hn' ⊢
    obtain rfl := Option.some.inj hn'
    refine ⟨⟨k, hget, FdTable.get_update_self hfd hk⟩, hnumber, fun i hi => ?_⟩
    exact (FdTable.get_update_of_ne hi).trans (hrest i hi)

/-- A descriptor as a machine word. -/
theorem toNat_fd {fd : ℕ} (hfd : fd < maxFds) :
    (BitVec.ofNat 64 fd).toNat = fd ∧ 0 ≤ (BitVec.ofNat 64 fd).toInt := by
  unfold maxFds at hfd
  have hnat : (BitVec.ofNat 64 fd).toNat = fd := by
    rw [BitVec.toNat_ofNat]
    omega
  refine ⟨hnat, ?_⟩
  rw [BitVec.toInt_eq_toNat_cond, hnat, if_pos (by omega)]
  omega

theorem ne_free_of_get {t : FdTable} {fd : ℕ} {kind : FdKind} (h : t.get fd = some kind) :
    kind ≠ .free :=
  (FdTable.get_eq_some.mp h).2.2

/-- `sys_dup` reports the descriptor it has taken. -/
theorem right_dup (oldfd : Word) : (DupCall.dup oldfd).Right task mem := by
  cases hget : task.fdTable.get oldfd.toNat with
  | none => exact right_of_errno (by simp only [run, sysDup, hget]; rfl)
  | some kind =>
    cases halloc : task.fdTable.allocKind kind 0 with
    | none => exact right_of_errno (by simp only [run, sysDup, hget, halloc]; rfl)
    | some taken =>
      obtain ⟨fd, table⟩ := taken
      obtain ⟨hlt, hfree, -, rfl⟩ := FdTable.allocKind_first halloc
      obtain ⟨hnat, hnonneg⟩ := toNat_fd hlt
      have hrun : (DupCall.dup oldfd).run task mem =
          .just { task with fdTable := Function.update task.fdTable fd ⟨kind, 0⟩ } mem
            (BitVec.ofNat 64 fd) := by
        simp only [run, sysDup, hget, halloc]
      refine (right_iff_placed hrun hnonneg trivial hget hlt (ne_free_of_get hget) ?_
        fun _ _ => rfl).mpr ⟨hnat.symm, rfl⟩
      rw [hnat, hfree]

/-- `sys_dup3` of an open descriptor reports the number it was given. -/
theorem right_dup3_iff {oldfd newfd flags : Word} {kind : FdKind} (hne : oldfd ≠ newfd)
    (hget : task.fdTable.get oldfd.toNat = some kind) (hnonneg : 0 ≤ newfd.toInt) :
    (DupCall.dup3 oldfd newfd flags).Right task mem ↔
      newfd.toNat < maxFds ∧ ∀ i < newfd.toNat, task.fdTable.get i ≠ none := by
  have hne' : oldfd.toNat ≠ newfd.toNat := fun h => hne (BitVec.eq_of_toNat_eq h)
  have hclosed : (task.fdTable.close newfd.toNat).2.get newfd.toNat = none := by
    rw [FdTable.get_close, if_pos rfl]
  have hrest : ∀ i, i ≠ newfd.toNat →
      (task.fdTable.close newfd.toNat).2.get i = task.fdTable.get i := by
    intro i hi
    rw [FdTable.get_close, if_neg hi]
  generalize hclose : (task.fdTable.close newfd.toNat).2 = closed at hclosed hrest
  by_cases hlt : newfd.toNat < maxFds
  · obtain ⟨fd, table, halloc, hle, hfd, hfree, hless, rfl⟩ :=
      FdTable.exists_allocKind hlt hclosed kind 0
    have hrun : (DupCall.dup3 oldfd newfd flags).run task mem =
        .just { task with fdTable := Function.update closed fd ⟨kind, 0⟩ } mem newfd := by
      simp only [run, sysDup3, hget, hclose, halloc, if_neg hne', Option.map_some,
        Option.getD_some, BitVec.ofNat_toNat, BitVec.setWidth_eq]
    rw [right_iff_placed hrun hnonneg rfl hget hfd (ne_free_of_get hget) hclosed hrest]
    constructor
    · rintro ⟨rfl, -⟩
      refine ⟨hlt, fun i hi => ?_⟩
      rw [← hrest i (by omega)]
      exact hless i hi
    · rintro ⟨-, hopen⟩
      refine ⟨?_, rfl⟩
      by_contra hlow
      have := hopen fd (by omega)
      rw [← hrest fd hlow] at this
      exact this hfree
  · -- the number is past the table: nothing there can refer to anything
    refine iff_of_false (fun hright => ?_) fun h => hlt h.1
    have hret : ((DupCall.dup3 oldfd newfd flags).run task mem).ret = some newfd := by
      simp only [run, sysDup3, hget, if_neg hne', Outcome.just, BitVec.ofNat_toNat,
        BitVec.setWidth_eq]
    obtain ⟨⟨kind', -, hafter⟩, -, -⟩ := hright newfd hret hnonneg
    exact hlt (FdTable.get_eq_some.mp hafter).1

/-- The kind `F_DUPFD` puts in is that of the original unless it is an end of a pipe. -/
theorem dupfdKind_eq_iff {t : FdTable} {fd : ℕ} {kind : FdKind} (hget : t.get fd = some kind) :
    dupfdKind t fd = kind ↔ ∀ idx, kind ≠ .pipeRead idx ∧ kind ≠ .pipeWrite idx := by
  have hfree := ne_free_of_get hget
  unfold dupfdKind FdTable.getFid
  rw [hget]
  cases kind with
  | free => exact absurd rfl hfree
  | console => simp
  | file fid => simp
  | pipeRead idx => simp
  | pipeWrite idx => simp

theorem dupfdKind_ne_free (t : FdTable) (fd : ℕ) : dupfdKind t fd ≠ .free := by
  unfold dupfdKind
  cases t.getFid fd <;> simp

/-- `F_DUPFD` on an open descriptor, with `newfd` the first free one from the bound on. -/
theorem right_dupfd_iff {fd arg : Word} {newfd : ℕ} {kind : FdKind}
    (hget : task.fdTable.get fd.toNat = some kind) (harg : arg.toNat ≤ newfd)
    (hlt : newfd < maxFds) (hfree : task.fdTable.get newfd = none)
    (hfirst : ∀ i, arg.toNat ≤ i → i < newfd → task.fdTable.get i ≠ none) :
    (DupCall.dupfd fd arg).Right task mem ↔
      (∀ i < arg.toNat, task.fdTable.get i ≠ none) ∧
        ∀ idx, kind ≠ .pipeRead idx ∧ kind ≠ .pipeWrite idx := by
  obtain ⟨hnat, hnonneg⟩ := toNat_fd hlt
  have hfind : ((List.range' arg.toNat (256 - arg.toNat)).find? fun newfd =>
      (task.fdTable.get newfd).isNone) = some newfd := by
    refine List.find?_range'_eq_some.mpr ⟨by rw [hfree]; rfl, ?_, fun i h1 h2 => ?_⟩
    · unfold maxFds at hlt
      rw [List.mem_range'_1]
      omega
    · rw [Option.not_isNone]
      exact Option.isSome_iff_ne_none.mpr (hfirst i h1 h2)
  obtain ⟨low, table, halloc, hle, hlow, hlowfree, hless, rfl⟩ :=
    FdTable.exists_allocKind hlt hfree (dupfdKind task.fdTable fd.toNat) 0
  have hrun : (DupCall.dupfd fd arg).run task mem =
      .just { task with
        fdTable := Function.update task.fdTable low ⟨dupfdKind task.fdTable fd.toNat, 0⟩ } mem
        (BitVec.ofNat 64 newfd) := by
    simp only [run, sysFcntl, if_true, hget, hfind, halloc, Option.map_some, Option.getD_some]
  rw [right_iff_placed hrun hnonneg (show arg.toNat ≤ (BitVec.ofNat 64 newfd).toNat by omega)
    hget hlow (dupfdKind_ne_free _ _) (by rw [hnat, hfree]) fun _ _ => rfl, hnat,
    dupfdKind_eq_iff hget]
  refine and_congr_left fun _ => ⟨?_, fun hopen => ?_⟩
  · rintro rfl i hi
    exact hless i (by omega)
  · by_contra hne
    rcases Nat.lt_or_ge low arg.toNat with hbelow | habove
    · exact hopen low hbelow hlowfree
    · exact hfirst low habove (by omega) hlowfree

/-- `F_DUPFD` with every descriptor from the bound on open. -/
theorem right_dupfd_full {fd arg : Word} {kind : FdKind}
    (hget : task.fdTable.get fd.toNat = some kind)
    (hopen : ∀ i, arg.toNat ≤ i → i < maxFds → task.fdTable.get i ≠ none) :
    (DupCall.dupfd fd arg).Right task mem := by
  have hfind : ((List.range' arg.toNat (256 - arg.toNat)).find? fun newfd =>
      (task.fdTable.get newfd).isNone) = none := by
    refine List.find?_eq_none.mpr fun i hi => ?_
    rw [List.mem_range'_1] at hi
    rw [Option.isNone_iff_eq_none]
    exact hopen i hi.1 (by unfold maxFds; omega)
  exact right_of_errno (by simp only [run, sysFcntl, if_true, hget, hfind]; rfl)

/-- The first free descriptor from a bound on, when there is one. -/
theorem exists_first_free {t : FdTable} {bound : ℕ}
    (h : ¬ ∀ i, bound ≤ i → i < maxFds → t.get i ≠ none) :
    ∃ newfd, bound ≤ newfd ∧ newfd < maxFds ∧ t.get newfd = none ∧
      ∀ i, bound ≤ i → i < newfd → t.get i ≠ none := by
  push Not at h
  obtain ⟨h1, h2, h3⟩ := Nat.find_spec h
  refine ⟨Nat.find h, h1, h2, h3, fun i hi hlt hnone => ?_⟩
  exact Nat.find_min h hlt ⟨hi, by omega, hnone⟩

/-- The number `dup3` reports, when it does not fail. -/
theorem ret_dup3 {oldfd newfd flags : Word} {kind : FdKind} (hne : oldfd ≠ newfd)
    (hget : task.fdTable.get oldfd.toNat = some kind) :
    ((DupCall.dup3 oldfd newfd flags).run task mem).ret = some newfd := by
  have hne' : oldfd.toNat ≠ newfd.toNat := fun h => hne (BitVec.eq_of_toNat_eq h)
  simp only [run, sysDup3, hget, if_neg hne', Outcome.just, BitVec.ofNat_toNat,
    BitVec.setWidth_eq]

/-- `dup3` that fails on its arguments. -/
theorem right_dup3_error {oldfd newfd flags : Word}
    (h : oldfd = newfd ∨ task.fdTable.get oldfd.toNat = none) :
    (DupCall.dup3 oldfd newfd flags).Right task mem := by
  by_cases hsame : oldfd = newfd
  · exact right_of_errno (by simp only [run, sysDup3, hsame, if_true]; rfl)
  · have hne : oldfd.toNat ≠ newfd.toNat := fun h => hsame (BitVec.eq_of_toNat_eq h)
    have hget := h.resolve_left hsame
    exact right_of_errno (by simp only [run, sysDup3, if_neg hne, hget]; rfl)

/-- **When duplication does what it reports.** -/
theorem right_iff_plain (task : TaskStruct) (mem : Mem) (c : DupCall) :
    c.Right task mem ↔ c.Plain task.fdTable := by
  cases c with
  | dup oldfd => exact iff_of_true (right_dup oldfd) trivial
  | dup3 oldfd newfd flags =>
    by_cases hsame : oldfd = newfd
    · exact iff_of_true (right_dup3_error (.inl hsame)) (.inl hsame)
    cases hget : task.fdTable.get oldfd.toNat with
    | none => exact iff_of_true (right_dup3_error (.inr hget)) (.inr (.inl hget))
    | some kind =>
      by_cases hneg : newfd.toInt < 0
      · exact iff_of_true (right_of_neg (ret_dup3 hsame hget) hneg) (.inr (.inr (.inl hneg)))
      · rw [right_dup3_iff hsame hget (by omega)]
        simp [Plain, hsame, hget, hneg]
  | dupfd fd arg =>
    cases hget : task.fdTable.get fd.toNat with
    | none =>
      exact iff_of_true
        (right_of_errno (by simp only [run, sysFcntl, if_true, hget]; rfl)) (.inl hget)
    | some kind =>
      by_cases hopen : ∀ i, arg.toNat ≤ i → i < maxFds → task.fdTable.get i ≠ none
      · exact iff_of_true (right_dupfd_full hget hopen) (.inr (.inl hopen))
      · obtain ⟨newfd, harg, hlt, hfree, hfirst⟩ := exists_first_free hopen
        rw [right_dupfd_iff hget harg hlt hfree hfirst]
        constructor
        · rintro ⟨hbelow, hkind⟩
          refine .inr (.inr ⟨hbelow, fun idx => ?_⟩)
          rw [hget]
          simpa using hkind idx
        · rintro (h | h | ⟨hbelow, hkind⟩)
          · rw [hget] at h
            cases h
          · exact absurd h hopen
          · refine ⟨hbelow, fun idx => ?_⟩
            have := hkind idx
            rw [hget] at this
            simpa using this

/-- A task whose descriptor 3 is an end of a pipe, beside the console. -/
def pipeTask : TaskStruct :=
  { TaskStruct.new 0 with fdTable := Function.update FdTable.new 3 ⟨.pipeRead 0, 0⟩ }

/-- In a fresh task `dup3(0, 10, 0)` returns 10 and puts the copy at 3, and `F_DUPFD` of an end
of a pipe makes a descriptor of the console. -/
theorem copies_go_wrong :
    (¬ (DupCall.dup3 0 10 0).Right (TaskStruct.new 0) (fun _ => 0)) ∧
      ¬ (DupCall.dupfd 3 0).Right pipeTask (fun _ => 0) := by
  constructor
  · intro h
    have hget : (TaskStruct.new 0).fdTable.get (0 : Word).toNat = some .console := by decide
    obtain ⟨-, hopen⟩ := (right_dup3_iff (by decide) hget (by decide)).mp h
    exact hopen 3 (by decide) (by decide)
  · intro h
    have hget : pipeTask.fdTable.get (3 : Word).toNat = some (.pipeRead 0) := by decide
    have hfirst : ∀ i, (0 : Word).toNat ≤ i → i < 4 → pipeTask.fdTable.get i ≠ none := by
      intro i _ hi
      interval_cases i <;> decide
    obtain ⟨-, hkind⟩ :=
      (right_dupfd_iff hget (Nat.zero_le 4) (by decide) (by decide) hfirst).mp h
    exact (hkind 0).1 rfl

end DupCall

end QuackOS.Linux
