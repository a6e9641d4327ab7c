import QuackOS.Lib.Run
import Mathlib.Data.List.Pairwise
import Mathlib.Data.Nat.Basic

/-!
# Virtual memory areas

`VmaManager` of `common/src/usr/mm/vma.rs`: a table of 64 slots whose first `len` hold the areas
of a process in the order of their addresses.

A function that may panic, on an empty slot or past the end of the table, returns an `Option`.
-/

namespace QuackOS.Vm

/-! ## Areas -/

/-- `VmRegionType`. -/
inductive VmRegionType
  | code | data | heap | stack | mmap | guard
  deriving DecidableEq, Repr

/-- `VmPerms`. -/
structure VmPerms where
  read : Bool
  write : Bool
  exec : Bool
  deriving DecidableEq, Repr

/-- `MmError`, as far as the functions here return it. -/
inductive MmError
  | noVma | permissionDenied | outOfMemory | invalidArgument | vmaOverlap
  deriving DecidableEq, Repr

/-- `VmaEntry`: the area from `startVaddr` up to but not including `endVaddr`. -/
structure VmaEntry where
  startVaddr : ℕ
  endVaddr : ℕ
  perms : VmPerms
  regionType : VmRegionType
  backingOffset : ℕ
  cow : Bool
  deriving DecidableEq, Repr

namespace VmaEntry

/-- `is_empty`. -/
def isEmpty (e : VmaEntry) : Bool := e.startVaddr ≥ e.endVaddr

/-- `contains`. -/
def contains (e : VmaEntry) (vaddr : ℕ) : Bool := vaddr ≥ e.startVaddr && vaddr < e.endVaddr

/-- `vma_can_merge`. -/
def canMerge (a b : VmaEntry) : Bool :=
  a.perms = b.perms && a.regionType = b.regionType && a.cow = b.cow &&
    a.backingOffset = b.backingOffset

end VmaEntry

/-! ## The table -/

/-- `MAX_VMA_ENTRIES`. -/
def maxVmaEntries : ℕ := 64

/-- `VmaManager`. -/
structure VmaManager where
  entries : ℕ → Option VmaEntry
  len : ℕ

namespace VmaManager

/-- `VmaManager::new`. -/
def new : VmaManager := ⟨fun _ => none, 0⟩

variable (m : VmaManager)

/-- `entries[i].as_ref().unwrap()`. -/
def entry (i : ℕ) : Option VmaEntry := if i < maxVmaEntries then m.entries i else none

/-- `entries[i] = Some(e)`. -/
def setEntry (i : ℕ) (e : VmaEntry) : Option VmaManager :=
  if i < maxVmaEntries then some { m with entries := Function.update m.entries i (some e) } else none

/-- The first index from `i` on, among the next `n`, whose entry satisfies `p`. -/
def scan (p : VmaEntry → Bool) : ℕ → ℕ → Option (Option ℕ)
  | 0, _ => some none
  | n + 1, i => do
    let e ← m.entry i
    if p e then return some i else scan p n (i + 1)

/-- `position` over the entries in use. -/
def position (p : VmaEntry → Bool) : Option (Option ℕ) := m.scan p m.len 0

/-- The loop of `bsearch` and `find`: the rightmost entry with `start <= vaddr`.  The first
argument bounds the number of rounds. -/
def bsearchLoop (vaddr : ℕ) : ℕ → ℕ → ℕ → Option ℕ → Option (Option ℕ)
  | 0, _, _, _ => none
  | n + 1, lo, hi, best =>
    if lo < hi then do
      let mid := (lo + hi) / 2
      let e ← m.entry mid
      if e.startVaddr ≤ vaddr then bsearchLoop vaddr n (mid + 1) hi (some mid)
      else bsearchLoop vaddr n lo mid best
    else some best

/-- `bsearch`. -/
def bsearch (vaddr : ℕ) : Option (Option ℕ) := m.bsearchLoop vaddr (m.len + 1) 0 m.len none

/-- `find`. -/
def find (vaddr : ℕ) : Option (Option VmaEntry) :=
  if m.len = 0 then some none
  else do
    match ← m.bsearch vaddr with
    | none => return none
    | some idx =>
      let e ← m.entry idx
      return if e.contains vaddr then some e else none

/-- `find_index_containing`. -/
def findIndexContaining (vaddr : ℕ) : Option (Option ℕ) := do
  match ← m.find vaddr with
  | none => return none
  | some _ => m.bsearch vaddr

/-- `find_index_touching`. -/
def findIndexTouching (start : ℕ) : Option (Option ℕ) := m.position fun e => e.endVaddr > start

/-- `overlaps`. -/
def overlaps (start stop : ℕ) : Option Bool := do
  let hit ← m.position fun e => start < e.endVaddr && stop > e.startVaddr
  return hit.isSome

/-- The loop of `shift_right`, downwards from `i`. -/
def shiftRightLoop (pos : ℕ) : ℕ → (ℕ → Option VmaEntry) → ℕ → Option VmaEntry
  | 0, f => f
  | i + 1, f =>
    if pos < i + 1 then
      shiftRightLoop pos i (Function.update (Function.update f (i + 1) (f i)) i none)
    else f

/-- `shift_right`; the slot behind the last entry must exist. -/
def shiftRight (pos : ℕ) : Option VmaManager :=
  if pos < m.len ∧ maxVmaEntries ≤ m.len then none
  else some { m with entries := shiftRightLoop pos m.len m.entries }

/-- `shift_left`; `len - 1` must not underflow. -/
def shiftLeft (pos : ℕ) : Option VmaManager :=
  if m.len = 0 ∨ maxVmaEntries < m.len then none
  else
    let f := (List.range' pos (m.len - 1 - pos)).foldl
      (fun (f : ℕ → Option VmaEntry) i =>
        Function.update (Function.update f i (f (i + 1))) (i + 1) none) m.entries
    some { m with entries := Function.update f (m.len - 1) none }

/-- The end of `insert` and of the splits: the entries from `pos` on make room. -/
def insertNew (pos : ℕ) (e : VmaEntry) : Option (VmaManager × Except MmError Unit) := do
  let m ← m.shiftRight pos
  let m ← m.setEntry pos e
  return ({ m with len := m.len + 1 }, .ok ())

/-- The part of `insert` that looks at the successor, with `merge_with_next`. -/
def insertBefore (pos : ℕ) (e : VmaEntry) : Option (VmaManager × Except MmError Unit) :=
  if pos < m.len then do
    let next ← m.entry pos
    if e.endVaddr > next.startVaddr then return (m, .error .vmaOverlap)
    else if e.endVaddr = next.startVaddr ∧ e.canMerge next then
      return (← m.setEntry pos { next with startVaddr := e.startVaddr }, .ok ())
    else m.insertNew pos e
  else m.insertNew pos e

/-- The part of `insert` that looks at the predecessor, with `merge_into_prev`.  An entry that is
merged is not compared with the successor. -/
def insertAt (pos : ℕ) (e : VmaEntry) : Option (VmaManager × Except MmError Unit) :=
  if 0 < pos then do
    let prev ← m.entry (pos - 1)
    if prev.endVaddr > e.startVaddr then return (m, .error .vmaOverlap)
    else if prev.endVaddr = e.startVaddr ∧ prev.canMerge e then
      let merged := { prev with endVaddr := max prev.endVaddr e.endVaddr }
      return (← m.setEntry (pos - 1) merged, .ok ())
    else m.insertBefore pos e
  else m.insertBefore pos e

/-- `insert`. -/
def insert (e : VmaEntry) : Option (VmaManager × Except MmError Unit) :=
  if e.isEmpty then some (m, .error .invalidArgument)
  else if m.len ≥ maxVmaEntries then some (m, .error .outOfMemory)
  else do
    let pos ← m.position fun x => x.startVaddr > e.startVaddr
    m.insertAt (pos.getD m.len) e

/-- The loop of `remove` from index `i` on.  The first argument bounds the number of rounds. -/
def removeLoop (start stop : ℕ) : ℕ → ℕ → VmaManager → Option (VmaManager × Except MmError Unit)
  | 0, _, _ => none
  | n + 1, i, m =>
    if i < m.len then do
      let e ← m.entry i
      if e.startVaddr ≥ stop then return (m, .ok ())
      else if start ≤ e.startVaddr ∧ stop ≥ e.endVaddr then
        let m ← m.shiftLeft i
        removeLoop start stop n i { m with len := m.len - 1 }
      else if start > e.startVaddr ∧ stop < e.endVaddr then
        -- the left part is cut before the room for the right part is checked
        let m ← m.setEntry i { e with endVaddr := start }
        if m.len ≥ maxVmaEntries then return (m, .error .outOfMemory)
        else m.insertNew (i + 1) { e with startVaddr := stop }
      else if start ≤ e.startVaddr then
        removeLoop start stop n (i + 1) (← m.setEntry i { e with startVaddr := stop })
      else
        removeLoop start stop n (i + 1) (← m.setEntry i { e with endVaddr := start })
    else some (m, .ok ())

/-- `remove`. -/
def remove (start stop : ℕ) : Option (VmaManager × Except MmError Unit) :=
  if start ≥ stop then some (m, .error .invalidArgument)
  else do
    match ← m.findIndexTouching start with
    | none => return (m, .ok ())
    | some idx => removeLoop start stop (m.len + 1) idx m

/-- `split_at`. -/
def splitAt (vaddr : ℕ) : Option (VmaManager × Except MmError ℕ) := do
  match ← m.findIndexContaining vaddr with
  | none => return (m, .error .noVma)
  | some idx =>
    let e ← m.entry idx
    if vaddr = e.startVaddr ∨ vaddr = e.endVaddr then return (m, .ok idx)
    else if m.len ≥ maxVmaEntries then return (m, .error .outOfMemory)
    else
      let m ← m.setEntry idx { e with endVaddr := vaddr }
      let (m, _) ← m.insertNew (idx + 1) { e with startVaddr := vaddr }
      return (m, .ok (idx + 1))

/-- `extend_stack`. -/
def extendStack (newStart : ℕ) : Option (VmaManager × Except MmError Unit) := do
  match ← m.position fun e => e.regionType = .stack with
  | none => return (m, .error .noVma)
  | some idx =>
    let e ← m.entry idx
    if newStart ≥ e.startVaddr then return (m, .error .invalidArgument)
    else if ← m.overlaps newStart e.startVaddr then return (m, .error .vmaOverlap)
    else
      let m ← m.setEntry idx { e with startVaddr := newStart }
      return (m, .ok ())

end VmaManager

end QuackOS.Vm
