import Mathlib.Data.Nat.Bitwise
import Mathlib.Logic.Function.Basic

/-!
# The buddy allocator

`BuddyAllocator` of `common/src/usr/mm/allocator.rs`: free blocks of `2 ^ order` pages in one
list for each order.  The lists are threaded through one table of links; `LINK_NONE` is `none`
here.

A function that may panic, or walk a list that does not end, returns an `Option`.
-/

namespace QuackOS.Vm

/-- `MAX_ORDER`. -/
def maxOrder : ℕ := 10

/-- `MAX_MANAGED_PAGES`. -/
def maxManagedPages : ℕ := 2 ^ 20

/-- `BuddyAllocator`, with `LINK_TABLE`. -/
structure Buddy where
  /-- `free_lists[k].head`. -/
  head : ℕ → Option ℕ
  /-- `LINK_TABLE`. -/
  next : ℕ → Option ℕ
  totalPages : ℕ
  freeCount : ℕ

namespace Buddy

variable (b : Buddy)

/-- `push_free`. -/
def pushFree (pfn order : ℕ) : Option Buddy :=
  if pfn < maxManagedPages then
    some { b with
      next := Function.update b.next pfn (b.head order)
      head := Function.update b.head order (some pfn) }
  else none

/-- `pop_free`. -/
def popFree (order : ℕ) : Option (ℕ × Buddy) :=
  (b.head order).map fun pfn =>
    (pfn, { b with
      next := Function.update b.next pfn none
      head := Function.update b.head order (b.next pfn) })

/-- The loop of `pop_free_at`.  The link of the removed node is cleared before it is copied to
the node in front of it. -/
def popFreeAtLoop (pfn order : ℕ) : ℕ → Option ℕ → Option ℕ → Option Buddy
  | 0, _, _ => none
  | _ + 1, _, none => some b
  | n + 1, prev, some c =>
    if c = pfn then
      let links := Function.update b.next c none
      match prev with
      | none => some { b with next := links, head := Function.update b.head order (b.next c) }
      | some p => some { b with next := Function.update links p (links c) }
    else popFreeAtLoop pfn order n (some c) (b.next c)

/-- `pop_free_at`.  A list has at most one node for each page. -/
def popFreeAt (pfn order : ℕ) : Option Buddy :=
  b.popFreeAtLoop pfn order (b.totalPages + 1) none (b.head order)

/-- The loop of `is_free`. -/
def isFreeLoop (pfn : ℕ) : ℕ → Option ℕ → Option Bool
  | 0, _ => none
  | _ + 1, none => some false
  | n + 1, some c => if c = pfn then some true else isFreeLoop pfn n (b.next c)

/-- `is_free`. -/
def isFree (pfn order : ℕ) : Option Bool := b.isFreeLoop pfn (b.totalPages + 1) (b.head order)

/-- The loop of `new`: the largest blocks first.  The first argument bounds the number of
rounds. -/
def newLoop : ℕ → ℕ → ℕ → ℕ → Buddy → Option Buddy
  | 0, _, _, _, _ => none
  | n + 1, remaining, offset, order, b =>
    if 0 < remaining then
      if 2 ^ order ≤ remaining then do
        let b ← b.pushFree offset order
        newLoop n (remaining - 2 ^ order) (offset + 2 ^ order) order b
      else newLoop n remaining offset (order - 1) b
    else some b

/-- `BuddyAllocator::new`. -/
def new (totalBytes : ℕ) : Option Buddy :=
  let totalPages := min (totalBytes >>> 12) maxManagedPages
  newLoop (totalPages + maxOrder + 1) totalPages 0 maxOrder
    { head := fun _ => none, next := fun _ => none, totalPages, freeCount := totalPages }

/-- The loop of `alloc` that splits a block of order `o` down to `order`. -/
def splitLoop (pfn order : ℕ) : ℕ → Buddy → Option Buddy
  | 0, b => some b
  | o + 1, b =>
    if order < o + 1 then do
      let b ← b.pushFree (pfn + 2 ^ o) o
      splitLoop pfn order o b
    else some b

/-- The smallest order from `order` on that has a free block. -/
def findOrder (order : ℕ) : Option ℕ :=
  (List.range' order (maxOrder + 1 - order)).find? fun o => (b.head o).isSome

/-- `alloc`; the outer `none` is a panic, the inner one the source's `None`. -/
def alloc (order : ℕ) : Option (Option ℕ × Buddy) :=
  match b.findOrder order with
  | none => some (none, b)
  | some o => do
    let (pfn, b) ← b.popFree o
    let b ← splitLoop pfn order o b
    if 2 ^ order ≤ b.freeCount then
      return (some pfn, { b with freeCount := b.freeCount - 2 ^ order })
    else none

/-- The loop of `free`: merge with the buddy while it is free.  The first argument is the number
of orders above `order`. -/
def mergeLoop : ℕ → ℕ → ℕ → Buddy → Option (ℕ × ℕ × Buddy)
  | 0, pfn, order, b => some (pfn, order, b)
  | n + 1, pfn, order, b => do
    let buddyPfn := pfn ^^^ 2 ^ order
    if ← b.isFree buddyPfn order then
      let b ← b.popFreeAt buddyPfn order
      mergeLoop n (min pfn buddyPfn) (order + 1) b
    else return (pfn, order, b)

/-- `free`. -/
def free (pfn order : ℕ) : Option Buddy :=
  if maxOrder < order then some b
  else do
    let (pfn', order', b) ← mergeLoop (maxOrder - order) pfn order b
    let b ← b.pushFree pfn' order'
    return { b with freeCount := b.freeCount + 2 ^ order }

end Buddy

end QuackOS.Vm
