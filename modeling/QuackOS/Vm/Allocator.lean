import QuackOS.Vm.BuddyTiling

/-!
# The page allocator

`alloc_page` of `common/src/usr/mm/allocator.rs`: a cache of single pages in front of the buddy
allocator, filled in batches.

* `Allocator` — the allocator and the cache, with `allocPage`;
* `Free`, `Takes` — the pages that are free, and one of them being taken;
* `HandedOut` — the cached pages and the pages handed out tile the memory with the free blocks;
* `HandedOut.allocPage` — **a page that is handed out was free and is not any more, and no other page
  changes hands; none is handed out only when none is free**.

A function that may panic, or walk a list that does not end, returns an `Option`.
-/

namespace QuackOS.Vm

open Tiling

/-- `PCP_BATCH`. -/
def pcpBatch : ℕ := 16

/-- `PCP_HIGH`. -/
def pcpHigh : ℕ := 64

/-- `BUDDY` and `GLOBAL_PCP`; the cached pages are those in use, the last one first. -/
structure Allocator where
  buddy : Option Buddy
  /-- `BuddyAllocator::base_paddr`: the address of page 0. -/
  basePaddr : ℕ
  cache : List ℕ

namespace Allocator

/-- `init`. -/
def init (basePaddr totalBytes : ℕ) : Option Allocator :=
  (Buddy.new totalBytes).map fun b => { buddy := some b, basePaddr, cache := [] }

/-- The loop of `refill`, for so many rounds. -/
def refillLoop : ℕ → Buddy → List ℕ → Option (Buddy × List ℕ)
  | 0, b, cache => some (b, cache)
  | n + 1, b, cache => do
    match ← b.alloc 0 with
    | (none, b) => return (b, cache)
    | (some pfn, b) =>
      if cache.length < pcpHigh then refillLoop n b (pfn :: cache)
      else return (← b.free pfn 0, cache)

variable (a : Allocator)

/-- `refill`; before `init` it panics. -/
def refill : Option Allocator := do
  let b ← a.buddy
  let (b, cache) ← refillLoop pcpBatch b a.cache
  return { a with buddy := some b, cache }

/-- `alloc_page`: from the cache, which is refilled when it is empty, and from the buddy allocator
if it is empty still.  The page is a page number. -/
def allocPage : Option (Option ℕ × Allocator) := do
  let a ← if a.cache = [] then a.refill else some a
  match a.cache with
  | pfn :: cache => return (some pfn, { a with cache })
  | [] =>
    match a.buddy with
    | none => return (none, a)
    | some b =>
      let (r, b) ← b.alloc 0
      return (r, { a with buddy := some b })

/-- The page that `alloc_page` hands out next, if any. -/
def nextPage : Option ℕ := a.allocPage.bind Prod.fst

/-- `total_pages`. -/
def totalPages : ℕ := (a.buddy.map (·.totalPages)).getD 0

/-! ## Free pages -/

/-- The page is cached, or in a block of a free list. -/
def Free (p : ℕ) : Prop :=
  p ∈ a.cache ∨ ∃ b o l x, a.buddy = some b ∧ o ≤ maxOrder ∧ Links.Chain b.next (b.head o) l ∧
    x ∈ l ∧ covers p (x, o) = true

/-- From `a` to `a'` the page `p` is taken, and no other page changes hands. -/
def Takes (a a' : Allocator) (p : ℕ) : Prop :=
  a.Free p ∧ ¬ a'.Free p ∧ ∀ q, q ≠ p → (a'.Free q ↔ a.Free q)

/-- The page is managed, but not free. -/
def Missing (p : ℕ) : Prop := p < a.totalPages ∧ ¬ a.Free p

/-- From `a` to `a'` no page changes hands. -/
def TakesNothing (a a' : Allocator) : Prop := ∀ q, a'.Free q ↔ a.Free q

/-- The cached pages and the blocks `out`, which are handed out, tile the managed pages with the
free blocks. -/
def HandedOut (a : Allocator) (out : List (ℕ × ℕ)) : Prop :=
  ∃ t b L, a.buddy = some b ∧ a.cache.length ≤ pcpHigh ∧
    Buddy.Rep (t, t - pages (a.cache.map (·, 0) ++ out)) t b L (a.cache.map (·, 0) ++ out)

section Spec

variable {a a' : Allocator} {out : List (ℕ × ℕ)} {b : Buddy} {L : ℕ → List ℕ} {t p q : ℕ}
  {cache : List ℕ}

theorem covers_page : covers q (p, 0) = true ↔ q = p := by
  simp only [covers, pow_zero, decide_eq_true_eq]
  omega

/-- Held blocks in another order. -/
theorem rep_perm {held held' : List (ℕ × ℕ)} (h : Buddy.Rep (t, t - pages held) t b L held)
    (hp : held.Perm held') : Buddy.Rep (t, t - pages held') t b L held' := by
  have hpages : pages held = pages held' := (hp.map _).sum_eq
  exact ⟨hpages ▸ h.counters, h.chain, h.tiled.perm hp, h.small⟩

/-- A page is free when it is managed and not in a block handed out. -/
theorem HandedOut.free_iff (h : a.HandedOut out) :
    a.Free p ↔ p < a.totalPages ∧ ∀ block ∈ out, covers p block = false := by
  obtain ⟨t, b, L, hb, -, hrep⟩ := h
  have htotal : a.totalPages = t := by
    rw [totalPages, hb]
    exact congrArg Prod.fst hrep.counters
  have hdisjoint := hrep.tiled.packed.disjoint
  rw [List.pairwise_append] at hdisjoint
  obtain ⟨-, hheld, hcross⟩ := hdisjoint
  obtain ⟨-, -, hcached⟩ := List.pairwise_append.mp hheld
  rw [htotal]
  constructor
  · rintro (hp | ⟨b', o, l, x, hb', ho, hch, hx, hcov⟩)
    · have hmem : (p, 0) ∈ a.cache.map (·, 0) := List.mem_map.mpr ⟨p, hp, rfl⟩
      refine ⟨hrep.tiled.covered.mpr ⟨(p, 0), by simp [hp], covers_self (p, 0)⟩, fun block hblock => ?_⟩
      have := hcached (p, 0) hmem block hblock p
      simpa [covers_self (p, 0)] using this
    · rw [hb, Option.some_inj] at hb'
      subst hb'
      obtain rfl := hch.unique (hrep.chain o (by omega))
      have hmem : (x, o) ∈ blocks (maxOrder + 1) L := mem_blocks.mpr ⟨by omega, hx⟩
      refine ⟨hrep.tiled.covered.mpr ⟨(x, o), List.mem_append_left _ hmem, hcov⟩,
        fun block hblock => ?_⟩
      have := hcross (x, o) hmem block (List.mem_append_right _ hblock) p
      simpa [hcov] using this
  · rintro ⟨hlt, hout⟩
    obtain ⟨⟨x, o⟩, hmem, hcov⟩ := hrep.tiled.covered.mp hlt
    rcases List.mem_append.mp hmem with hmem | hmem
    · obtain ⟨ho, hx⟩ := mem_blocks.mp hmem
      exact Or.inr ⟨b, o, L o, x, hb, by omega, hrep.chain o ho, hx, hcov⟩
    · rcases List.mem_append.mp hmem with hmem | hmem
      · obtain ⟨y, hy, heq⟩ := List.mem_map.mp hmem
        obtain ⟨rfl, rfl⟩ := Prod.mk.inj heq
        rw [covers_page.mp hcov]
        exact Or.inl hy
      · rw [hout _ hmem] at hcov
        cases hcov

/-- Pages that are handed out are different, and in no other block handed out. -/
theorem HandedOut.pages {l : List ℕ} (h : a.HandedOut (l.map (·, 0) ++ out)) :
    l.Nodup ∧ ∀ p ∈ l, p < a.totalPages ∧ ∀ block ∈ out, covers p block = false := by
  obtain ⟨t, b, L, hb, -, hrep⟩ := h
  have htotal : a.totalPages = t := by
    rw [totalPages, hb]
    exact congrArg Prod.fst hrep.counters
  have hheld := (List.pairwise_append.mp hrep.tiled.packed.disjoint).2.1
  have hout := (List.pairwise_append.mp hheld).2.1
  obtain ⟨hpages, -, hcross⟩ := List.pairwise_append.mp hout
  refine ⟨?_, fun p hp => ⟨?_, fun block hblock => ?_⟩⟩
  · refine (List.pairwise_map.mp hpages).imp fun {p q} hpq heq => ?_
    have := hpq p
    simp [heq, covers_self (q, 0)] at this
  · rw [htotal]
    exact hrep.tiled.covered.mpr ⟨(p, 0), by simp [hp], covers_self (p, 0)⟩
  · have := hcross (p, 0) (List.mem_map.mpr ⟨p, hp, rfl⟩) block hblock p
    simpa [covers_self (p, 0)] using this

/-- A page that goes out. -/
theorem HandedOut.takes (h : a.HandedOut out) (h' : a'.HandedOut ((p, 0) :: out))
    (htotal : a'.totalPages = a.totalPages) : Takes a a' p := by
  have hfree : ∀ q, a'.Free q ↔ q ≠ p ∧ a.Free q := by
    intro q
    rw [h'.free_iff, h.free_iff, htotal]
    have hq : covers q (p, 0) = false ↔ q ≠ p := by
      rw [← Bool.not_eq_true, covers_page]
    simp only [List.mem_cons, forall_eq_or_imp, hq]
    tauto
  have hp : a.Free p := by
    rw [h.free_iff, ← htotal]
    exact (HandedOut.pages (l := [p]) h').2 p (List.mem_singleton_self p)
  refine ⟨hp, fun hp' => ?_, fun q hq => ?_⟩
  · exact ((hfree p).mp hp').1 rfl
  · rw [hfree q]
    exact and_iff_right hq

/-! ## Allocation -/

/-- The loop of `refill` adds pages to the cache; it adds none only when there is none. -/
theorem refillLoop_spec {n : ℕ} (hlen : cache.length + n ≤ pcpHigh)
    (h : Buddy.Rep (t, t - pages (cache.map (·, 0) ++ out)) t b L (cache.map (·, 0) ++ out)) :
    ∃ b' cache' L', refillLoop n b cache = some (b', cache') ∧
      Buddy.Rep (t, t - pages (cache'.map (·, 0) ++ out)) t b' L' (cache'.map (·, 0) ++ out) ∧
      cache.length ≤ cache'.length ∧ cache'.length ≤ cache.length + n ∧
      (cache'.length = cache.length → 0 < n →
        b' = b ∧ b.alloc 0 = some (none, b) ∧ ∀ o ≤ maxOrder, L o = []) := by
  induction n generalizing b L cache with
  | zero => exact ⟨b, cache, L, rfl, h, le_rfl, le_rfl, fun _ h => absurd h (Nat.lt_irrefl 0)⟩
  | succ n ih =>
    rcases h.alloc 0 with ⟨p, b₁, L₁, hsome, -, hrep⟩ | ⟨hnone, hempty⟩
    · have hrep₁ : Buddy.Rep (t, t - pages ((p :: cache).map (·, 0) ++ out)) t b₁ L₁
          ((p :: cache).map (·, 0) ++ out) := hrep
      obtain ⟨b', cache', L', hloop, hrep', hge, hle, -⟩ :=
        ih (by rw [List.length_cons]; omega) hrep₁
      rw [List.length_cons] at hge hle
      refine ⟨b', cache', L', ?_, hrep', by omega, by omega, fun heq => by omega⟩
      rw [refillLoop, hsome]
      simp only [Option.bind_eq_bind, Option.bind_some]
      rw [if_pos (by omega), hloop]
    · have hall : ∀ o ≤ maxOrder, L o = [] := fun o ho => hempty o (Nat.zero_le o) ho
      refine ⟨b, cache, L, ?_, h, le_rfl, by omega, fun _ _ => ⟨rfl, hnone, hall⟩⟩
      rw [refillLoop, hnone]
      rfl

/-- A page goes out of the cache. -/
theorem HandedOut.fromCache {base : ℕ} (h : HandedOut ⟨some b, base, p :: cache⟩ out) :
    HandedOut ⟨some b, base, cache⟩ ((p, 0) :: out) := by
  obtain ⟨t, b', L, hb, hlen, hrep⟩ := h
  cases hb
  have hlen' : cache.length ≤ pcpHigh := Nat.le_of_succ_le hlen
  refine ⟨t, b, L, rfl, hlen', rep_perm hrep ?_⟩
  exact List.perm_middle.symm

/-- **`alloc_page` hands out a page that was free**, or changes nothing because no page is. -/
theorem HandedOut.allocPage (h : a.HandedOut out) :
    (∃ p a', a.allocPage = some (some p, a') ∧ a'.HandedOut ((p, 0) :: out) ∧
      a'.basePaddr = a.basePaddr ∧ a'.totalPages = a.totalPages) ∨
    (a.allocPage = some (none, a) ∧ ∀ q, ¬ a.Free q) := by
  obtain ⟨buddy, base, cache⟩ := a
  obtain ⟨t, b, L, hb, hlen, hrep⟩ := id h
  cases hb
  cases cache with
  | cons p cache =>
    refine Or.inl ⟨p, ⟨some b, base, cache⟩, ?_, h.fromCache, rfl, rfl⟩
    rw [Allocator.allocPage, if_neg (List.cons_ne_nil p cache)]
    rfl
  | nil =>
    have hbatch : ([] : List ℕ).length + pcpBatch ≤ pcpHigh := by decide
    obtain ⟨b', cache', L', hloop, hrep', -, hle, hnone⟩ := refillLoop_spec hbatch hrep
    have hrefill : refill ⟨some b, base, []⟩ = some ⟨some b', base, cache'⟩ := by
      rw [refill, Option.bind_eq_bind, Option.bind_some, hloop]
      rfl
    have htotal : b'.totalPages = b.totalPages :=
      (congrArg Prod.fst hrep'.counters).trans (congrArg Prod.fst hrep.counters).symm
    cases cache' with
    | cons p cache' =>
      have hout : HandedOut ⟨some b', base, p :: cache'⟩ out :=
        ⟨t, b', L', rfl, hle.trans hbatch, hrep'⟩
      refine Or.inl ⟨p, ⟨some b', base, cache'⟩, ?_, hout.fromCache, rfl, htotal⟩
      rw [Allocator.allocPage, if_pos rfl, hrefill]
      rfl
    | nil =>
      obtain ⟨rfl, halloc, hempty⟩ := hnone rfl (by decide)
      refine Or.inr ⟨?_, fun q hq => ?_⟩
      · rw [Allocator.allocPage, if_pos rfl, hrefill]
        simp only [Option.bind_eq_bind, Option.bind_some, halloc]
        rfl
      · rcases hq with hq | ⟨b₂, o, l, x, hb₂, ho, hch, hx, -⟩
        · cases hq
        · cases hb₂
          obtain rfl := hch.unique (hrep.chain o (by omega))
          rw [hempty o ho] at hx
          cases hx

/-- Right after `init` no page is handed out. -/
theorem handedOut_init (basePaddr totalBytes : ℕ) :
    ∃ a, init basePaddr totalBytes = some a ∧ a.HandedOut [] := by
  obtain ⟨b, L, t, hb, hrep⟩ := Buddy.rep_new totalBytes
  refine ⟨⟨some b, basePaddr, []⟩, ?_, t, b, L, rfl, Nat.zero_le _, hrep⟩
  rw [init, hb]
  rfl

end Spec

end Allocator

end QuackOS.Vm
