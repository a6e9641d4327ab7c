import QuackOS.Lib.Slots

/-!
# The descriptor table of a Linux task

`liblinux/src/fd_table.rs`: 256 entries, each with what it refers to.

* `FdTable.allocKind`, `get`, `closeKind` — the operations;
* `FdTable.refs` — how many entries refer to an object, with one lemma for each operation.
-/

namespace QuackOS.Linux

/-- A server file identifier, `FsFid`. -/
abbrev FsFid := BitVec 64

/-- `FdKind`: what a descriptor refers to. -/
inductive FdKind
  | free
  | console
  | file (fid : FsFid)
  | pipeRead (idx : ℕ)
  | pipeWrite (idx : ℕ)
  deriving DecidableEq, Repr

/-- `FdEntry`. -/
structure FdEntry where
  kind : FdKind
  flags : BitVec 32
  deriving DecidableEq, Repr

/-- `MAX_FDS`. -/
def maxFds : ℕ := 256

/-- `FdTable`: the entries below `maxFds`. -/
abbrev FdTable := ℕ → FdEntry

namespace FdTable

/-- `FdTable::new`: the first three descriptors are the console. -/
def new : FdTable := fun fd => if fd < 3 then ⟨.console, 2⟩ else ⟨.free, 0⟩

/-- `alloc_kind`: the lowest free descriptor. -/
def allocKind (t : FdTable) (kind : FdKind) (flags : BitVec 32) : Option (ℕ × FdTable) :=
  ((List.range maxFds).find? fun i => (t i).kind = .free).map fun i =>
    (i, Function.update t i ⟨kind, flags⟩)

/-- `alloc_file`. -/
def allocFile (t : FdTable) (fid : FsFid) (flags : BitVec 32) : Option (ℕ × FdTable) :=
  allocKind t (.file fid) flags

/-- `get`. -/
def get (t : FdTable) (fd : ℕ) : Option FdKind :=
  if fd < maxFds ∧ (t fd).kind ≠ .free then some (t fd).kind else none

/-- `get_fid`. -/
def getFid (t : FdTable) (fd : ℕ) : Option FsFid :=
  match t.get fd with
  | some (.file fid) => some fid
  | _ => none

/-- `close_kind`: what the descriptor referred to, and the table without it. -/
def closeKind (t : FdTable) (fd : ℕ) : Option FdKind × FdTable :=
  match t.get fd with
  | some kind => (some kind, Function.update t fd ⟨.free, 0⟩)
  | none => (none, t)

/-- `close`: whether the descriptor was open, and the table without it. -/
def close (t : FdTable) (fd : ℕ) : Bool × FdTable :=
  match t.get fd with
  | some _ => (true, Function.update t fd ⟨.free, 0⟩)
  | none => (false, t)

/-- How many descriptors refer to an object. -/
def refs (t : FdTable) (k : FdKind) : ℕ := Slots.occurrences maxFds (fun fd => (t fd).kind) k

section Lemmas

variable {t t' : FdTable} {k kind : FdKind} {fd : ℕ} {flags : BitVec 32}

theorem get_eq_some : t.get fd = some k ↔ fd < maxFds ∧ (t fd).kind = k ∧ k ≠ .free := by
  unfold get
  split
  · rename_i h
    constructor
    · intro hk
      cases hk
      exact ⟨h.1, rfl, h.2⟩
    · rintro ⟨-, rfl, -⟩
      rfl
  · rename_i h
    constructor
    · intro hk
      cases hk
    · rintro ⟨hlt, rfl, hk⟩
      exact absurd ⟨hlt, hk⟩ h

theorem allocKind_eq_some (h : t.allocKind kind flags = some (fd, t')) :
    fd < maxFds ∧ (t fd).kind = .free ∧ t' = Function.update t fd ⟨kind, flags⟩ := by
  obtain ⟨i, hi, heq⟩ := Option.map_eq_some_iff.mp h
  cases heq
  have hfree := List.find?_some hi
  have hmem := List.mem_of_find?_eq_some hi
  exact ⟨List.mem_range.mp hmem, by simpa using hfree, rfl⟩

theorem allocKind_eq_none (h : t.allocKind kind flags = none) (hfd : fd < maxFds) :
    (t fd).kind ≠ .free := by
  have := List.find?_eq_none.mp (Option.map_eq_none_iff.mp h) fd (List.mem_range.mpr hfd)
  simpa using this

/-- A table with a free entry has room. -/
theorem allocKind_isSome (hfd : fd < maxFds) (h : (t fd).kind = .free) :
    ∃ r, t.allocKind kind flags = some r := by
  cases hr : t.allocKind kind flags with
  | none => exact absurd h (allocKind_eq_none hr hfd)
  | some r => exact ⟨r, rfl⟩

/-- An entry that changes takes one reference away and adds one. -/
theorem refs_update (hfd : fd < maxFds) (e : FdEntry) (k : FdKind) :
    refs (Function.update t fd e) k + (if (t fd).kind = k then 1 else 0) =
      refs t k + (if e.kind = k then 1 else 0) := by
  have hupd : (fun i => (Function.update t fd e i).kind) =
      Function.update (fun i => (t i).kind) fd e.kind := by
    funext i
    by_cases hi : i = fd
    · subst hi
      rw [Function.update_self, Function.update_self]
    · rw [Function.update_of_ne hi, Function.update_of_ne hi]
  unfold refs
  rw [hupd]
  exact Slots.occurrences_update hfd

theorem refs_pos : 0 < refs t k ↔ ∃ fd < maxFds, (t fd).kind = k := Slots.occurrences_pos

theorem refs_eq_zero : refs t k = 0 ↔ ∀ fd < maxFds, (t fd).kind ≠ k := by
  rw [← Nat.le_zero, ← Nat.not_lt, refs_pos]
  push Not
  rfl

/-- A new descriptor adds one reference. -/
theorem refs_allocKind (h : t.allocKind kind flags = some (fd, t')) (hk : k ≠ .free) :
    refs t' k = refs t k + (if kind = k then 1 else 0) := by
  obtain ⟨hlt, hfree, rfl⟩ := allocKind_eq_some h
  have := refs_update hlt (t := t) ⟨kind, flags⟩ k
  rw [hfree, if_neg (Ne.symm hk)] at this
  exact this

/-- A descriptor that is set free takes one reference away. -/
theorem refs_free (h : t.get fd = some kind) (hk : k ≠ .free) :
    refs (Function.update t fd ⟨.free, 0⟩) k + (if kind = k then 1 else 0) = refs t k := by
  obtain ⟨hlt, rfl, -⟩ := get_eq_some.mp h
  have := refs_update hlt (t := t) ⟨.free, 0⟩ k
  rw [if_neg (Ne.symm hk)] at this
  exact this

end Lemmas

end FdTable

end QuackOS.Linux
