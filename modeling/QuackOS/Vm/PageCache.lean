import QuackOS.Vm.Allocator
import QuackOS.Vm.BuddyPacking

/-!
# The page cache

`alloc_page`, `free_page`, `alloc_pages` and `free_pages` of `common/src/usr/mm/allocator.rs`: single
pages go through `PcpCache`, which is filled and drained in batches, and blocks go to the buddy
allocator.

* `Paged` — the allocator with the pages that are handed out;
* `Paged.Conserved` — no page is in two places, the cache is small, and every page is counted once;
* `pages_conserved` — **this holds after every run of calls that give back pages they have**, in
  whatever blocks, and no call panics.
-/

namespace QuackOS.Vm

open Tiling

namespace Allocator

/-! ## The calls -/

/-- The loop of `drain`, for so many rounds. -/
def drainLoop : ℕ → Buddy → List ℕ → Option (Buddy × List ℕ)
  | 0, b, cache => some (b, cache)
  | n + 1, b, [] => drainLoop n b []
  | n + 1, b, pfn :: cache => do drainLoop n (← b.free pfn 0) cache

variable (a : Allocator)

/-- `drain`; before `init` it panics. -/
def drain : Option Allocator := do
  let b ← a.buddy
  let (b, cache) ← drainLoop (min a.cache.length pcpBatch) b a.cache
  return { a with buddy := some b, cache }

/-- `free_page`; the array of the cache has `PCP_HIGH` entries. -/
def freePage (pfn : ℕ) : Option Allocator := do
  let a ← if pcpHigh ≤ a.cache.length then a.drain else some a
  if a.cache.length < pcpHigh then return { a with cache := pfn :: a.cache } else none

/-- `alloc_pages`. -/
def allocPages (order : ℕ) : Option (Option ℕ × Allocator) :=
  match a.buddy with
  | none => some (none, a)
  | some b => (b.alloc order).map fun (r, b) => (r, { a with buddy := some b })

/-- `free_pages`. -/
def freePages (pfn order : ℕ) : Option Allocator :=
  match a.buddy with
  | none => some a
  | some b => (b.free pfn order).map fun b => { a with buddy := some b }

/-- `free_count`. -/
def freeCount : ℕ := (a.buddy.map (·.freeCount)).getD 0

/-- The page is in a block of a free list. -/
def Listed (p : ℕ) : Prop :=
  ∃ b o l x, a.buddy = some b ∧ o ≤ maxOrder ∧ Links.Chain b.next (b.head o) l ∧ x ∈ l ∧
    covers p (x, o) = true

end Allocator

/-- The allocator, and the pages that are handed out. -/
structure Paged where
  pages : Allocator
  out : List ℕ

/-- The calls of the front end. -/
inductive PageCall where
  | allocPage
  | freePage (pfn : ℕ)
  | allocPages (order : ℕ)
  | freePages (pfn order : ℕ)

/-- The pages of a block that was handed out. -/
def blockPages (order : ℕ) : Option ℕ → List ℕ
  | none => []
  | some pfn => List.range' pfn (2 ^ order)

/-- One call; `none` is a panic or a loop that does not end.  A block that is larger than any the
allocator hands out is not taken back. -/
def PageCall.run (s : Paged) : PageCall → Option Paged
  | .allocPage => s.pages.allocPage.map fun (r, a) => ⟨a, blockPages 0 r ++ s.out⟩
  | .freePage pfn => (s.pages.freePage pfn).map fun a => ⟨a, s.out.erase pfn⟩
  | .allocPages order => (s.pages.allocPages order).map fun (r, a) =>
    ⟨a, blockPages order r ++ s.out⟩
  | .freePages pfn order => (s.pages.freePages pfn order).map fun a =>
    ⟨a, if order ≤ maxOrder then s.out.diff (List.range' pfn (2 ^ order)) else s.out⟩

/-- Only pages that are handed out are given back; a block need not be one that was handed out. -/
def PageCall.Legal (s : Paged) : PageCall → Prop
  | .freePage pfn => pfn ∈ s.out
  | .freePages pfn order => order ≤ maxOrder → ∀ p ∈ List.range' pfn (2 ^ order), p ∈ s.out
  | _ => True

/-- The front end over a region of so many bytes. -/
def pagedInit (basePaddr totalBytes : ℕ) : Option Paged :=
  (Allocator.init basePaddr totalBytes).map fun a => ⟨a, []⟩

def pageStep (s : Option Paged) (c : PageCall) : Option Paged := s.bind c.run

/-- What the front end conserves. -/
structure Paged.Conserved (s : Paged) : Prop where
  cached : s.pages.cache.Nodup
  handedOut : s.out.Nodup
  apart : ∀ p ∈ s.pages.cache, p ∉ s.out
  listed : ∀ p, s.pages.Listed p → p ∉ s.pages.cache ∧ p ∉ s.out
  count : s.pages.cache.length ≤ pcpHigh
  total : s.pages.cache.length + s.pages.freeCount + s.out.length = s.pages.totalPages

/-! ## The invariant -/

/-- Cached pages and pages handed out share none with the free blocks; `t` is the number of pages. -/
def Allocator.Holds (t : ℕ) (a : Allocator) (out : List ℕ) : Prop :=
  ∃ b L, a.buddy = some b ∧ a.cache.length ≤ pcpHigh ∧
    Buddy.Packs (t, t - pages (singles (a.cache ++ out))) t b L (singles (a.cache ++ out))

namespace Allocator

variable {a : Allocator} {b : Buddy} {L : ℕ → List ℕ} {t p n order : ℕ} {out cache : List ℕ}

/-- Pages in another order, or from one place to another. -/
theorem packs_perm {l l' : List ℕ} (h : Buddy.Packs (t, t - pages (singles l)) t b L (singles l))
    (hp : l.Perm l') : Buddy.Packs (t, t - pages (singles l')) t b L (singles l') := by
  have hpages : pages (singles l') = pages (singles l) := by
    rw [pages_singles, pages_singles, hp.length_eq]
  rw [hpages]
  refine h.of_countP fun q => ?_
  rw [countP_singles, countP_singles, hp.count_eq]

/-- A block is held as its pages are. -/
theorem packs_block {l : List ℕ} : Buddy.Packs (t, t - pages ((p, order) :: singles l)) t b L
      ((p, order) :: singles l) ↔
    Buddy.Packs (t, t - pages (singles (List.range' p (2 ^ order) ++ l))) t b L
      (singles (List.range' p (2 ^ order) ++ l)) := by
  have hpages : pages (singles (List.range' p (2 ^ order) ++ l)) =
      pages ((p, order) :: singles l) := by
    rw [pages_singles, pages_cons, pages_singles, List.length_append, List.length_range']
  have hcount : ∀ q, (singles (List.range' p (2 ^ order) ++ l)).countP (covers q) =
      ((p, order) :: singles l).countP (covers q) := by
    intro q
    rw [countP_singles, List.count_append, count_range_block, List.countP_cons, countP_singles,
      Nat.add_comm]
  rw [hpages]
  exact ⟨fun h => h.of_countP hcount, fun h => h.of_countP fun q => (hcount q).symm⟩

theorem packs_page {l : List ℕ} : Buddy.Packs (t, t - pages ((p, 0) :: singles l)) t b L
      ((p, 0) :: singles l) ↔
    Buddy.Packs (t, t - pages (singles (p :: l))) t b L (singles (p :: l)) := packs_block

/-! ## Single pages -/

/-- The loop of `refill` moves pages into the cache. -/
theorem refillLoop_packs (hlen : cache.length + n ≤ pcpHigh)
    (h : Buddy.Packs (t, t - pages (singles (cache ++ out))) t b L (singles (cache ++ out))) :
    ∃ b' cache' L', refillLoop n b cache = some (b', cache') ∧ cache'.length ≤ pcpHigh ∧
      Buddy.Packs (t, t - pages (singles (cache' ++ out))) t b' L' (singles (cache' ++ out)) := by
  induction n generalizing b L cache with
  | zero => exact ⟨b, cache, L, rfl, hlen, h⟩
  | succ n ih =>
    rcases h.alloc 0 with ⟨p, b₁, L₁, hsome, -, hpack⟩ | hnone
    · obtain ⟨b', cache', L', hloop, hlen', hpack'⟩ := @ih b₁ L₁ (p :: cache)
        (by rw [List.length_cons]; omega) (packs_page.mp hpack)
      refine ⟨b', cache', L', ?_, hlen', hpack'⟩
      rw [refillLoop, hsome]
      simp only [Option.bind_eq_bind, Option.bind_some]
      rw [if_pos (by omega), hloop]
    · refine ⟨b, cache, L, ?_, by omega, h⟩
      rw [refillLoop, hnone]
      rfl

/-- The loop of `drain` moves pages out of the cache. -/
theorem drainLoop_packs (hn : n ≤ cache.length)
    (h : Buddy.Packs (t, t - pages (singles (cache ++ out))) t b L (singles (cache ++ out))) :
    ∃ b' cache' L', drainLoop n b cache = some (b', cache') ∧
      cache'.length + n = cache.length ∧
      Buddy.Packs (t, t - pages (singles (cache' ++ out))) t b' L' (singles (cache' ++ out)) := by
  induction n generalizing b L cache with
  | zero => exact ⟨b, cache, L, rfl, rfl, h⟩
  | succ n ih =>
    cases cache with
    | nil => simp at hn
    | cons p cache =>
      rw [List.length_cons] at hn
      obtain ⟨b₁, L₁, hfree, hpack⟩ := Buddy.Packs.free (packs_page.mpr h) (Nat.zero_le _)
      obtain ⟨b', cache', L', hloop, hlen, hpack'⟩ := ih (by omega) hpack
      refine ⟨b', cache', L', ?_, by rw [List.length_cons]; omega, hpack'⟩
      rw [drainLoop, hfree]
      exact hloop

/-- A page goes out of the cache, or straight out of the buddy allocator. -/
theorem Holds.allocPage (h : a.Holds t out) :
    ∃ r a', a.allocPage = some (r, a') ∧ a'.Holds t (blockPages 0 r ++ out) := by
  have hfromCache : ∀ b L p cache, (p :: cache).length ≤ pcpHigh →
      Buddy.Packs (t, t - pages (singles (p :: cache ++ out))) t b L
        (singles (p :: cache ++ out)) →
      Holds t ⟨some b, a.basePaddr, cache⟩ (p :: out) := by
    intro b L p cache hlen hpack
    exact ⟨b, L, rfl, Nat.le_of_succ_le hlen, packs_perm hpack List.perm_middle.symm⟩
  obtain ⟨b, L, hb, hlen, hpack⟩ := h
  cases hc : a.cache with
  | cons p cache =>
    rw [hc] at hlen hpack
    refine ⟨some p, ⟨some b, a.basePaddr, cache⟩, ?_, hfromCache b L p cache hlen hpack⟩
    simp only [Allocator.allocPage, hc, hb, List.cons_ne_nil, if_false, Option.bind_eq_bind,
      Option.bind_some]
    rfl
  | nil =>
    rw [hc] at hpack
    obtain ⟨b₁, cache₁, L₁, hloop, hlen₁, hpack₁⟩ :=
      refillLoop_packs (show ([] : List ℕ).length + pcpBatch ≤ pcpHigh by decide) hpack
    have hrefill : a.refill = some ⟨some b₁, a.basePaddr, cache₁⟩ := by
      rw [refill, hb, hc, Option.bind_eq_bind, Option.bind_some, hloop]
      rfl
    cases cache₁ with
    | cons p cache₁ =>
      refine ⟨some p, ⟨some b₁, a.basePaddr, cache₁⟩, ?_, hfromCache b₁ L₁ p cache₁ hlen₁ hpack₁⟩
      rw [Allocator.allocPage, if_pos hc, hrefill]
      rfl
    | nil =>
      -- the last resort
      rcases hpack₁.alloc 0 with ⟨p, b₂, L₂, hsome, -, hpack₂⟩ | hnone
      · refine ⟨some p, ⟨some b₂, a.basePaddr, []⟩, ?_, b₂, L₂, rfl, Nat.zero_le _,
          packs_page.mp hpack₂⟩
        rw [Allocator.allocPage, if_pos hc, hrefill]
        simp only [Option.bind_eq_bind, Option.bind_some, hsome]
        rfl
      · refine ⟨none, ⟨some b₁, a.basePaddr, []⟩, ?_, b₁, L₁, rfl, Nat.zero_le _, hpack₁⟩
        rw [Allocator.allocPage, if_pos hc, hrefill]
        simp only [Option.bind_eq_bind, Option.bind_some, hnone]
        rfl

/-- A page goes into the cache, which is drained first when it is full. -/
theorem Holds.freePage (h : a.Holds t (p :: out)) :
    ∃ a', a.freePage p = some a' ∧ a'.Holds t out := by
  obtain ⟨b, L, hb, hlen, hpack⟩ := h
  by_cases hfull : pcpHigh ≤ a.cache.length
  · obtain ⟨b₁, cache₁, L₁, hloop, hlen₁, hpack₁⟩ :=
      drainLoop_packs (Nat.min_le_left a.cache.length pcpBatch) hpack
    have hroom : cache₁.length < pcpHigh := by
      have h₁ : pcpBatch = 16 := rfl
      have h₂ : pcpHigh = 64 := rfl
      omega
    have hdrain : a.drain = some ⟨some b₁, a.basePaddr, cache₁⟩ := by
      rw [drain, hb, Option.bind_eq_bind, Option.bind_some, hloop]
      rfl
    refine ⟨⟨some b₁, a.basePaddr, p :: cache₁⟩, ?_, b₁, L₁, rfl, hroom,
      packs_perm hpack₁ List.perm_middle⟩
    rw [Allocator.freePage, if_pos hfull, hdrain]
    simp only [Option.bind_eq_bind, Option.bind_some, if_pos hroom]
    rfl
  · refine ⟨{ a with cache := p :: a.cache }, ?_, b, L, hb, Nat.lt_of_not_le hfull,
      packs_perm hpack List.perm_middle⟩
    rw [Allocator.freePage, if_neg hfull]
    simp only [Option.bind_eq_bind, Option.bind_some, if_pos (Nat.lt_of_not_le hfull)]
    rfl

/-! ## Blocks -/

theorem Holds.allocPages (h : a.Holds t out) (order : ℕ) :
    ∃ r a', a.allocPages order = some (r, a') ∧ a'.Holds t (blockPages order r ++ out) := by
  obtain ⟨b, L, hb, hlen, hpack⟩ := h
  rcases hpack.alloc order with ⟨p, b₁, L₁, hsome, -, hpack₁⟩ | hnone
  · refine ⟨some p, { a with buddy := some b₁ }, ?_, b₁, L₁, rfl, hlen, ?_⟩
    · rw [Allocator.allocPages, hb]
      dsimp only
      rw [hsome, Option.map_some]
    · refine packs_perm (packs_block.mp hpack₁) ?_
      rw [← List.append_assoc, ← List.append_assoc]
      exact List.perm_append_comm.append_right out
  · refine ⟨none, a, ?_, b, L, hb, hlen, hpack⟩
    rw [Allocator.allocPages, hb]
    dsimp only
    rw [hnone, Option.map_some, ← hb]

theorem Holds.freePages (h : a.Holds t (List.range' p (2 ^ order) ++ out))
    (ho : order ≤ maxOrder) : ∃ a', a.freePages p order = some a' ∧ a'.Holds t out := by
  obtain ⟨b, L, hb, hlen, hpack⟩ := h
  have hperm : (a.cache ++ (List.range' p (2 ^ order) ++ out)).Perm
      (List.range' p (2 ^ order) ++ (a.cache ++ out)) := by
    rw [← List.append_assoc, ← List.append_assoc]
    exact List.perm_append_comm.append_right out
  have hblock := packs_perm hpack hperm
  obtain ⟨b₁, L₁, hfree, hpack₁⟩ := (packs_block.mpr hblock).free ho
  refine ⟨{ a with buddy := some b₁ }, ?_, b₁, L₁, rfl, hlen, hpack₁⟩
  rw [Allocator.freePages, hb]
  dsimp only
  rw [hfree, Option.map_some]

/-- A block that is too large is left alone. -/
theorem freePages_large (hb : a.buddy = some b) (ho : ¬ order ≤ maxOrder) :
    a.freePages p order = some a := by
  rw [Allocator.freePages, hb]
  dsimp only
  rw [Buddy.free, if_pos (by omega), Option.map_some, ← hb]

/-! ## What the invariant says -/

/-- The pages held are different, and in no free block. -/
theorem Holds.conserved (h : a.Holds t out) : Paged.Conserved ⟨a, out⟩ := by
  obtain ⟨b, L, hb, hlen, hpack⟩ := h
  have hcount : ∀ q, (a.cache ++ out).count q ≤ 1 := by
    intro q
    have := hpack.packed q
    rw [countP_singles] at this
    split at this <;> omega
  obtain ⟨hcached, hout, hapart⟩ := List.nodup_append.mp (List.nodup_iff_count_le_one.mpr hcount)
  have hlisted : ∀ p, a.Listed p → p ∉ a.cache ++ out := by
    rintro p ⟨b', o, l, x, hb', ho, hch, hx, hcov⟩ hmem
    rw [hb, Option.some_inj] at hb'
    subst hb'
    obtain rfl := hch.unique (hpack.chain o (by omega))
    -- the page would be counted in the list and among those held
    have hblock : 0 < (blocks (maxOrder + 1) L).countP (covers p) :=
      List.countP_pos_iff.mpr ⟨(x, o), mem_blocks.mpr ⟨by omega, hx⟩, hcov⟩
    have hheld : 0 < (a.cache ++ out).count p := List.count_pos_iff.mpr hmem
    have := hpack.packed p
    rw [countP_singles] at this
    split at this <;> omega
  have htotal : b.totalPages = t := congrArg Prod.fst hpack.counters
  have hfree : b.freeCount = t - pages (singles (a.cache ++ out)) :=
    congrArg Prod.snd hpack.counters
  have hall := hpack.packed.pages_le
  rw [pages_singles, List.length_append] at hfree hall
  refine ⟨hcached, hout, fun p hp hp' => hapart p hp p hp' rfl, fun p hp => ?_, hlen, ?_⟩
  · exact not_or.mp fun hmem => hlisted p hp (List.mem_append.mpr hmem)
  · show a.cache.length + a.freeCount + out.length = a.totalPages
    rw [freeCount, totalPages, hb]
    show a.cache.length + b.freeCount + out.length = b.totalPages
    omega

end Allocator

/-! ## Runs -/

/-- **One call keeps the invariant.** -/
theorem Paged.run_holds {s : Paged} {t : ℕ} (h : s.pages.Holds t s.out) {c : PageCall}
    (hlegal : c.Legal s) : ∃ s', c.run s = some s' ∧ s'.pages.Holds t s'.out := by
  cases c with
  | allocPage =>
    obtain ⟨r, a', hrun, hholds⟩ := h.allocPage
    exact ⟨_, by rw [PageCall.run, hrun]; rfl, hholds⟩
  | allocPages order =>
    obtain ⟨r, a', hrun, hholds⟩ := h.allocPages order
    exact ⟨_, by rw [PageCall.run, hrun]; rfl, hholds⟩
  | freePage pfn =>
    obtain ⟨b, L, hb, hlen, hpack⟩ := h
    have hperm : (s.pages.cache ++ s.out).Perm (s.pages.cache ++ pfn :: s.out.erase pfn) :=
      (List.perm_cons_erase hlegal).append_left _
    obtain ⟨a', hrun, hholds⟩ := Allocator.Holds.freePage
      ⟨b, L, hb, hlen, Allocator.packs_perm hpack hperm⟩
    exact ⟨_, by rw [PageCall.run, hrun]; rfl, hholds⟩
  | freePages pfn order =>
    obtain ⟨b, L, hb, hlen, hpack⟩ := h
    by_cases ho : order ≤ maxOrder
    · have hback : (List.range' pfn (2 ^ order) ++ s.out.diff (List.range' pfn (2 ^ order))).Perm
          s.out := by
        refine List.subperm_append_diff_self_of_count_le fun p hp => ?_
        have := List.count_pos_iff.mpr (hlegal ho p hp)
        have := List.nodup_iff_count_le_one.mp (@List.nodup_range' pfn (2 ^ order) 1 (by decide)) p
        omega
      obtain ⟨a', hrun, hholds⟩ := Allocator.Holds.freePages
        ⟨b, L, hb, hlen, Allocator.packs_perm hpack (hback.symm.append_left _)⟩ ho
      refine ⟨_, by rw [PageCall.run, hrun, if_pos ho]; rfl, hholds⟩
    · refine ⟨_, ?_, b, L, hb, hlen, hpack⟩
      rw [PageCall.run, Allocator.freePages_large hb ho, if_neg ho]
      rfl

theorem pagedInit_holds (basePaddr totalBytes : ℕ) :
    ∃ s t, pagedInit basePaddr totalBytes = some s ∧ s.pages.Holds t s.out := by
  obtain ⟨b, L, t, hb, hrep⟩ := Buddy.rep_new totalBytes
  refine ⟨⟨⟨some b, basePaddr, []⟩, []⟩, t, ?_, b, L, rfl, Nat.zero_le _, hrep.packs⟩
  rw [pagedInit, Allocator.init, hb]
  rfl

/-- **The page cache conserves the pages.**  After every run of calls that give back only pages
that are handed out, no page is in the cache and in a free list, or handed out, at the same time,
none is handed out twice, the cache has `PCP_HIGH` pages at most, and cached pages, free pages and
pages handed out add up to all of them.  No call panics. -/
theorem pages_conserved (basePaddr totalBytes : ℕ) (calls : List PageCall)
    (hlegal : Run.Along pageStep (fun s c => ∀ m, s = some m → c.Legal m)
      (pagedInit basePaddr totalBytes) calls) :
    ∃ s, Run.exec pageStep (pagedInit basePaddr totalBytes) calls = some s ∧ s.Conserved := by
  have hinv : ∃ s t, Run.exec pageStep (pagedInit basePaddr totalBytes) calls = some s ∧
      s.pages.Holds t s.out := by
    refine @Run.exec_invariant_along _ _ pageStep _
      (fun s => ∃ m t, s = some m ∧ m.pages.Holds t m.out) ?_ _ ?_ _ hlegal
    · rintro s c ⟨m, t, rfl, hholds⟩ hl
      obtain ⟨m', hm', hholds'⟩ := Paged.run_holds hholds (hl m rfl)
      exact ⟨m', t, hm', hholds'⟩
    · obtain ⟨s, t, hs, hholds⟩ := pagedInit_holds basePaddr totalBytes
      exact ⟨s, t, hs, hholds⟩
  obtain ⟨s, t, hs, hholds⟩ := hinv
  exact ⟨s, hs, hholds.conserved⟩

/-- A region of six pages.  A block of two is taken; one of its pages goes back to the buddy
allocator, then the cache takes everything that is free, and the other page goes into it. -/
theorem pages_conserved_block : ∃ s, Run.exec pageStep (pagedInit 0 24576)
    [.allocPages 1, .freePages 5 0, .allocPage, .freePage 4] = some s ∧ s.Conserved := by
  refine pages_conserved _ _ _ ⟨fun _ _ => trivial, ?_, fun _ _ => trivial, ?_, trivial⟩
  · intro m hm _
    cases hm
    decide
  · intro m hm
    cases hm
    show 4 ∈ _
    decide

end QuackOS.Vm
