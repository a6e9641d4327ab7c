import QuackOS.Lib.Run
import QuackOS.Vm.BuddyPacking

/-!
# What the buddy allocator conserves

The free blocks and the blocks handed out tile the managed pages.  `Rep` connects the link table
to the lists of a `Tiling`; each operation of the allocator is then one move of the tiling.

`pop_free_at` copies a link that it has just cleared, so a block that is taken out of the middle
of its list takes the rest of the list with it.  `MergesAtEnds` is the condition that `free`
never does so.
-/

namespace QuackOS.Vm

open Links Tiling

namespace Buddy

variable {b : Buddy} {L : ℕ → List ℕ} {held : List (ℕ × ℕ)} {c : ℕ × ℕ} {t a q o k : ℕ}

/-- The link table holds the lists, and lists and held blocks tile the first `t` pages. -/
structure Rep (c : ℕ × ℕ) (t : ℕ) (b : Buddy) (L : ℕ → List ℕ) (held : List (ℕ × ℕ)) : Prop where
  counters : (b.totalPages, b.freeCount) = c
  chain : ∀ o < maxOrder + 1, Chain b.next (b.head o) (L o)
  tiled : Tiled t (maxOrder + 1) L held
  small : t ≤ maxManagedPages

/-! ## Taking and giving back a block -/

/-- Lists that tile the pages with the held blocks share none with them. -/
theorem Rep.packs (h : Rep c t b L held) : Packs c t b L held :=
  ⟨h.counters, h.chain, h.tiled.packed, h.small⟩

theorem Rep.pushFree (h : Rep c t b L ((a, o) :: held)) (ho : o < maxOrder + 1) :
    ∃ b', b.pushFree a o = some b' ∧ Rep c t b' (Function.update L o (a :: L o)) held := by
  obtain ⟨b', hb', hpack⟩ := h.packs.pushFree ho
  exact ⟨b', hb', hpack.counters, hpack.chain, h.tiled.put ho, h.small⟩

/-- The first block of a list is taken out. -/
theorem Rep.takeHead (h : Rep c t b L held) (ho : o < maxOrder + 1) {l : List ℕ}
    (hl : L o = a :: l) :
    Rep c t { b with
      next := Function.update b.next a none
      head := Function.update b.head o (b.next a) } (Function.update L o l) ((a, o) :: held) :=
  ⟨h.counters, (h.packs.takeHead ho hl).chain, h.tiled.take ho (hl ▸ List.Perm.refl _), h.small⟩

/-- The last block of a list is taken out; `p` is the block in front of it. -/
theorem Rep.takeLast (h : Rep c t b L held) (ho : o < maxOrder + 1) {A : List ℕ} {p : ℕ}
    (hl : L o = A ++ [p, a]) :
    Rep c t { b with next := Function.update (Function.update b.next a none) p none }
      (Function.update L o (A ++ [p])) ((a, o) :: held) := by
  have hperm : (L o).Perm (a :: (A ++ [p])) := by
    have hassoc : A ++ [p, a] = A ++ [p] ++ [a] := by simp
    rw [hl, hassoc]
    exact List.perm_append_singleton a (A ++ [p])
  exact ⟨h.counters, (h.packs.takeMiddle ho hl).chain, h.tiled.take ho hperm, h.small⟩

theorem Rep.popFree (h : Rep c t b L held) (ho : o < maxOrder + 1) (hhead : (b.head o).isSome) :
    ∃ a b' L', b.popFree o = some (a, b') ∧ Rep c t b' L' ((a, o) :: held) := by
  have hch := h.chain o ho
  cases hl : L o with
  | nil =>
    rw [hl, chain_nil] at hch
    rw [hch] at hhead
    cases hhead
  | cons a l =>
    rw [hl] at hch
    refine ⟨a, _, _, ?_, h.takeHead ho hl⟩
    rw [Buddy.popFree, hch.1]
    rfl

/-! ## Allocation -/

theorem Rep.splitLoop {order : ℕ} (h : Rep c t b L ((a, o) :: held)) (ho : o < maxOrder + 1)
    (hle : order ≤ o) :
    ∃ b' L', splitLoop a order o b = some b' ∧ Rep c t b' L' ((a, order) :: held) := by
  induction o generalizing b L with
  | zero =>
    obtain rfl : order = 0 := Nat.le_zero.mp hle
    exact ⟨b, L, rfl, h⟩
  | succ o ih =>
    by_cases hlt : order < o + 1
    · have hcut := (Tiled.cut_iff.mp h.tiled).1.perm (List.Perm.swap _ _ _)
      obtain ⟨b', hb', hrep⟩ := Rep.pushFree ⟨h.counters, h.chain, hcut, h.small⟩ (by omega)
      obtain ⟨b'', L'', hb'', hrep'⟩ := ih hrep (by omega) (by omega)
      refine ⟨b'', L'', ?_, hrep'⟩
      simp only [Buddy.splitLoop, if_pos hlt, hb', Option.bind_eq_bind, Option.bind_some, hb'']
    · obtain rfl : order = o + 1 := by omega
      exact ⟨b, L, if_neg hlt, h⟩

/-! ## Merging -/

/-- The block is the first or the last of its list. -/
def AtEnd (l : List ℕ) (q : ℕ) : Prop := l.head? = some q ∨ l.getLast? = some q

theorem Rep.popFreeAt (h : Rep c t b L held) (ht : c.1 = t) (ho : o < maxOrder + 1)
    (hend : AtEnd (L o) q) :
    ∃ b' l, b.popFreeAt q o = some b' ∧ Rep c t b' (Function.update L o l) ((q, o) :: held) := by
  have hlen := h.tiled.packed.length_le ho
  have htotal : b.totalPages = t := (congrArg Prod.fst h.counters).trans ht
  have hch := h.chain o ho
  have hnd := h.tiled.packed.nodup_list ho
  -- a list of one block has the same block at both ends
  have hhead : ∀ l, L o = q :: l → ∃ b' l, b.popFreeAt q o = some b' ∧
      Rep c t b' (Function.update L o l) ((q, o) :: held) := by
    intro l hl
    refine ⟨_, l, ?_, h.takeHead ho hl⟩
    rw [hl] at hch
    rw [Buddy.popFreeAt, @popFreeAtLoop_eq _ _ _ [] _ _ _ hch (by simp) _ (Nat.succ_pos _)]
    rfl
  rcases hend with hend | hend
  · obtain ⟨l, hl⟩ := List.head?_eq_some_iff.mp hend
    exact hhead l hl
  · obtain ⟨A, hA⟩ := List.getLast?_eq_some_iff.mp hend
    rcases List.eq_nil_or_concat A with rfl | ⟨A, p, rfl⟩
    · exact hhead [] hA
    · rw [List.concat_eq_append] at hA
      have hl : L o = A ++ [p, q] := by simp [hA]
      refine ⟨_, A ++ [p], ?_, h.takeLast ho hl⟩
      rw [hA] at hch hlen hnd
      have hq : q ∉ A ++ [p] := by
        intro hmem
        exact (List.nodup_append.mp hnd).2.2 q hmem q (by simp) rfl
      rw [List.length_append, List.length_singleton] at hlen
      rw [Buddy.popFreeAt, popFreeAtLoop_eq hch hq (by omega)]
      simp [unlinked]

/-- Whenever a block that is merged has a free buddy, the buddy is at an end of its list; the
first argument is the number of orders above. -/
def MergesAtEnds (b : Buddy) : ℕ → ℕ → ℕ → Prop
  | 0, _, _ => True
  | n + 1, pfn, order =>
    b.isFree (pfn ^^^ 2 ^ order) order = some true →
      (b.head order = some (pfn ^^^ 2 ^ order) ∨ b.next (pfn ^^^ 2 ^ order) = none) ∧
        MergesAtEnds b n (min pfn (pfn ^^^ 2 ^ order)) (order + 1)

/-- The same of the lists. -/
def ListsMerge (L : ℕ → List ℕ) : ℕ → ℕ → ℕ → Prop
  | 0, _, _ => True
  | n + 1, pfn, order =>
    pfn ^^^ 2 ^ order ∈ L order →
      AtEnd (L order) (pfn ^^^ 2 ^ order) ∧
        ListsMerge L n (min pfn (pfn ^^^ 2 ^ order)) (order + 1)

/-- Only the lists from `order` on matter. -/
theorem ListsMerge.congr {L' : ℕ → List ℕ} {n pfn order : ℕ} (h : ListsMerge L n pfn order)
    (hsame : ∀ o, order ≤ o → L' o = L o) : ListsMerge L' n pfn order := by
  induction n generalizing pfn order with
  | zero => trivial
  | succ n ih =>
    intro hmem
    rw [hsame order le_rfl] at hmem ⊢
    obtain ⟨hend, hrest⟩ := h hmem
    exact ⟨hend, ih hrest fun o ho => hsame o (by omega)⟩

theorem Rep.listsMerge (h : Rep c t b L held) (ht : c.1 = t) {n pfn order : ℕ}
    (hn : order + n ≤ maxOrder) (hm : MergesAtEnds b n pfn order) : ListsMerge L n pfn order := by
  induction n generalizing pfn order with
  | zero => trivial
  | succ n ih =>
    intro hmem
    have ho : order < maxOrder + 1 := by omega
    obtain ⟨hend, hrest⟩ := hm (by rw [h.packs.isFree ht ho, decide_eq_true hmem])
    refine ⟨?_, ih (by omega) hrest⟩
    have hch := h.chain order ho
    rcases hend with hhead | hnext
    · exact .inl (hch.head_eq ▸ hhead)
    · right
      obtain ⟨A, l, hl⟩ := List.append_of_mem hmem
      rw [hl] at hch
      obtain ⟨-, rfl⟩ := List.cons.inj (hch.split.eq_singleton hnext)
      simp [hl]

/-- Two buddies make a block of the next order. -/
theorem Rep.join (h : Rep c t b L ((a ^^^ 2 ^ o, o) :: (a, o) :: held)) :
    Rep c t b L ((min a (a ^^^ 2 ^ o), o + 1) :: held) := by
  refine ⟨h.counters, h.chain, ?_, h.small⟩
  have halign : 2 ^ o ∣ a := h.tiled.aligned (a, o) (by simp)
  rcases xor_two_pow halign with ⟨heq, hdvd⟩ | ⟨heq, hdvd⟩
  · have hmin : min a (a ^^^ 2 ^ o) = a := by omega
    rw [hmin]
    refine Tiled.cut_iff.mpr ⟨?_, hdvd⟩
    rw [← heq]
    exact h.tiled.perm (List.Perm.swap _ _ _)
  · have hmin : min a (a ^^^ 2 ^ o) = a ^^^ 2 ^ o := by omega
    rw [hmin]
    refine Tiled.cut_iff.mpr ⟨?_, hdvd⟩
    rw [← heq]
    exact h.tiled

theorem Rep.mergeLoop {n : ℕ} (h : Rep c t b L ((a, o) :: held)) (ht : c.1 = t)
    (hn : o + n ≤ maxOrder) (hm : ListsMerge L n a o) :
    ∃ a' o' b' L', mergeLoop n a o b = some (a', o', b') ∧ o' < maxOrder + 1 ∧
      Rep c t b' L' ((a', o') :: held) := by
  induction n generalizing b L a o with
  | zero => exact ⟨a, o, b, L, rfl, by omega, h⟩
  | succ n ih =>
    have ho : o < maxOrder + 1 := by omega
    have hfree := @Packs.isFree b L _ c t (a ^^^ 2 ^ o) o h.packs ht ho
    by_cases hmem : a ^^^ 2 ^ o ∈ L o
    · rw [decide_eq_true hmem] at hfree
      obtain ⟨hend, hrest⟩ := hm hmem
      obtain ⟨b', l, hb', hrep⟩ := h.popFreeAt ht ho hend
      have hrest' : ListsMerge (Function.update L o l) n (min a (a ^^^ 2 ^ o)) (o + 1) := by
        refine hrest.congr fun k hk => ?_
        rw [Function.update_of_ne (by omega)]
      obtain ⟨a', o', b'', L', hloop, ho', hrep'⟩ := ih hrep.join (by omega) hrest'
      refine ⟨a', o', b'', L', ?_, ho', hrep'⟩
      simp only [Buddy.mergeLoop, hfree, Option.bind_eq_bind, Option.bind_some, if_true, hb', hloop]
    · rw [decide_eq_false hmem] at hfree
      refine ⟨a, o, b, L, ?_, ho, h⟩
      simp [Buddy.mergeLoop, hfree]

/-! ## The whole calls -/

/-- `alloc` hands out a block, or finds no block that is large enough. -/
theorem Rep.alloc (h : Rep (t, t - pages held) t b L held) (order : ℕ) :
    (∃ a b' L', b.alloc order = some (some a, b') ∧ order ≤ maxOrder ∧
      Rep (t, t - pages ((a, order) :: held)) t b' L' ((a, order) :: held)) ∨
      (b.alloc order = some (none, b) ∧ ∀ o, order ≤ o → o ≤ maxOrder → L o = []) := by
  cases hfind : b.findOrder order with
  | none =>
    right
    refine ⟨by rw [Buddy.alloc, hfind], fun o hle ho => ?_⟩
    have hch := h.chain o (by omega)
    rw [findOrder_eq_none hfind o hle ho] at hch
    cases hl : L o with
    | nil => rfl
    | cons x l =>
      rw [hl] at hch
      exact absurd hch.1 (by simp)
  | some o =>
    left
    obtain ⟨hle, ho, hhead⟩ := findOrder_eq_some hfind
    obtain ⟨a, b₁, L₁, hpop, hrep₁⟩ := h.popFree ho hhead
    obtain ⟨b₂, L₂, hsplit, hrep₂⟩ := hrep₁.splitLoop ho hle
    have htotal : b₂.totalPages = t := congrArg Prod.fst hrep₂.counters
    have hfree : b₂.freeCount = t - pages held := congrArg Prod.snd hrep₂.counters
    have hall := hrep₂.tiled.all
    rw [pages_cons] at hall
    have hroom : 2 ^ order ≤ b₂.freeCount := by
      rw [hfree]
      omega
    refine ⟨a, { b₂ with freeCount := b₂.freeCount - 2 ^ order }, L₂, ?_, by omega, ?_⟩
    · simp only [Buddy.alloc, hfind, hpop, Option.bind_eq_bind, Option.bind_some, hsplit,
        if_pos hroom]
      rfl
    · refine ⟨?_, hrep₂.chain, hrep₂.tiled, hrep₂.small⟩
      refine Prod.ext htotal ?_
      show b₂.freeCount - 2 ^ order = t - pages ((a, order) :: held)
      rw [pages_cons, hfree]
      omega

/-- `free` gives a held block back. -/
theorem Rep.free (h : Rep (t, t - pages held) t b L held) (hmem : (a, o) ∈ held)
    (ho : o ≤ maxOrder) (hm : MergesAtEnds b (maxOrder - o) a o) :
    ∃ b' L', b.free a o = some b' ∧
      Rep (t, t - pages (held.erase (a, o))) t b' L' (held.erase (a, o)) := by
  have hperm := List.perm_cons_erase hmem
  have hrep : Rep (t, t - pages held) t b L ((a, o) :: held.erase (a, o)) :=
    ⟨h.counters, h.chain, h.tiled.perm hperm, h.small⟩
  obtain ⟨a', o', b₁, L₁, hloop, ho', hrep₁⟩ :=
    hrep.mergeLoop rfl (by omega) (h.listsMerge rfl (by omega) hm)
  obtain ⟨b₂, hpush, hrep₂⟩ := hrep₁.pushFree ho'
  have htotal : b₂.totalPages = t := congrArg Prod.fst hrep₂.counters
  have hfree : b₂.freeCount = t - pages held := congrArg Prod.snd hrep₂.counters
  have hpages : pages held = 2 ^ o + pages (held.erase (a, o)) := by
    rw [pages, (hperm.map _).sum_eq]
    exact pages_cons
  have hall := h.tiled.all
  refine ⟨{ b₂ with freeCount := b₂.freeCount + 2 ^ o }, _, ?_, ?_, hrep₂.chain, hrep₂.tiled,
    hrep₂.small⟩
  · simp only [Buddy.free, if_neg (show ¬ maxOrder < o by omega), hloop, Option.bind_eq_bind,
      Option.bind_some, hpush]
    rfl
  · refine Prod.ext htotal ?_
    show b₂.freeCount + 2 ^ o = t - pages (held.erase (a, o))
    have := Nat.two_pow_pos o
    omega

/-- The loop of `new`, with the first `t` pages done. -/
theorem Rep.newLoop {n remaining order : ℕ} (h : Rep c t b L []) (hn : remaining + order < n)
    (ho : order < maxOrder + 1) (hsmall : t + remaining ≤ maxManagedPages)
    (halign : 2 ^ order ∣ t) :
    ∃ b' L', newLoop n remaining t order b = some b' ∧ Rep c (t + remaining) b' L' [] := by
  induction n generalizing remaining t order b L with
  | zero => omega
  | succ n ih =>
    unfold Buddy.newLoop
    by_cases hpos : 0 < remaining
    · rw [if_pos hpos]
      by_cases hfits : 2 ^ order ≤ remaining
      · have hsize := Nat.two_pow_pos order
        have hgrow : Rep c (t + 2 ^ order) b L [(t, order)] :=
          ⟨h.counters, h.chain, h.tiled.grow halign, by omega⟩
        obtain ⟨b₁, hpush, hrep₁⟩ := hgrow.pushFree ho
        have halign' : 2 ^ order ∣ t + 2 ^ order := (Nat.dvd_add_right halign).mpr (dvd_refl _)
        obtain ⟨b', L', hloop, hrep⟩ := @ih _ _ _ (remaining - 2 ^ order) _ hrep₁ (by omega) ho
          (by omega) halign'
        refine ⟨b', L', ?_, ?_⟩
        · rw [if_pos hfits, hpush, Option.bind_eq_bind, Option.bind_some, hloop]
        · rwa [show t + 2 ^ order + (remaining - 2 ^ order) = t + remaining by omega] at hrep
      · rw [if_neg hfits]
        -- a block of one page always fits
        have horder : order ≠ 0 := by
          rintro rfl
          exact hfits hpos
        have hdvd : 2 ^ (order - 1) ∣ t := (pow_dvd_pow 2 (Nat.sub_le order 1)).trans halign
        exact ih h (by omega) (by omega) hsmall hdvd
    · obtain rfl : remaining = 0 := by omega
      rw [if_neg hpos]
      exact ⟨b, L, rfl, h⟩

theorem rep_new (totalBytes : ℕ) : ∃ b L t, Buddy.new totalBytes = some b ∧
    Rep (t, t - pages []) t b L [] := by
  have hle : min (totalBytes >>> 12) maxManagedPages ≤ maxManagedPages := Nat.min_le_right _ _
  obtain ⟨b, L, hb, hrep⟩ := @Rep.newLoop
    { head := fun _ => none
      next := fun _ => none
      totalPages := min (totalBytes >>> 12) maxManagedPages
      freeCount := min (totalBytes >>> 12) maxManagedPages } (fun _ => []) _ 0
    (min (totalBytes >>> 12) maxManagedPages + maxOrder + 1)
    (min (totalBytes >>> 12) maxManagedPages) maxOrder
    ⟨rfl, fun _ _ => rfl, Tiled.empty, Nat.zero_le _⟩ (by omega) (by omega) (by omega)
    (Nat.dvd_zero _)
  rw [Nat.zero_add] at hrep
  exact ⟨b, L, _, hb, hrep⟩

end Buddy

/-! ## Runs -/

/-- The allocator and the blocks its callers hold. -/
structure Managed where
  buddy : Buddy
  held : List (ℕ × ℕ)

/-- The calls of the allocator. -/
inductive BuddyCall where
  | alloc (order : ℕ)
  | free (pfn order : ℕ)

/-- One call; `none` is a panic or a loop that does not end. -/
def BuddyCall.run (s : Managed) : BuddyCall → Option Managed
  | .alloc order => (s.buddy.alloc order).map fun
    | (none, b) => { s with buddy := b }
    | (some pfn, b) => { buddy := b, held := (pfn, order) :: s.held }
  | .free pfn order => (s.buddy.free pfn order).map fun b =>
    { buddy := b, held := s.held.erase (pfn, order) }

/-- Only blocks that are held are freed, with their own order. -/
def BuddyCall.Legal (s : Managed) : BuddyCall → Prop
  | .alloc _ => True
  | .free pfn order => (pfn, order) ∈ s.held

instance (s : Managed) : ∀ c : BuddyCall, Decidable (c.Legal s)
  | .alloc _ => isTrue trivial
  | .free pfn order => inferInstanceAs (Decidable ((pfn, order) ∈ s.held))

/-- No block is merged with one in the middle of a free list. -/
def BuddyCall.Merges (s : Managed) : BuddyCall → Prop
  | .alloc _ => True
  | .free pfn order => s.buddy.MergesAtEnds (maxOrder - order) pfn order

def buddyStep (s : Option Managed) (c : BuddyCall) : Option Managed := s.bind c.run

/-- The allocator of a region of so many bytes. -/
def buddyInit (totalBytes : ℕ) : Option Managed :=
  (Buddy.new totalBytes).map fun b => { buddy := b, held := [] }

/-- What the allocator conserves; `L` are its free lists. -/
structure Conserved (s : Managed) (L : ℕ → List ℕ) : Prop where
  lists : ∀ o ≤ maxOrder, Chain s.buddy.next (s.buddy.head o) (L o)
  aligned : ∀ o ≤ maxOrder, ∀ a ∈ L o, 2 ^ o ∣ a ∧ a + 2 ^ o ≤ s.buddy.totalPages
  disjoint : (blocks (maxOrder + 1) L ++ s.held).Pairwise fun x y =>
    ∀ p, ¬ (covers p x = true ∧ covers p y = true)
  cover : ∀ p, p < s.buddy.totalPages ↔
    ∃ block ∈ blocks (maxOrder + 1) L ++ s.held, covers p block = true
  freeCount : s.buddy.freeCount = pages (blocks (maxOrder + 1) L)
  complete : ∀ order b, s.buddy.alloc order = some (none, b) →
    ∀ o, order ≤ o → o ≤ maxOrder → L o = []

/-- The invariant of the runs. -/
structure Managed.Ok (s : Managed) (L : ℕ → List ℕ) (t : ℕ) : Prop where
  rep : Buddy.Rep (t, t - pages s.held) t s.buddy L s.held
  order : ∀ block ∈ s.held, block.2 ≤ maxOrder

theorem Managed.Ok.conserved {s : Managed} {L : ℕ → List ℕ} {t : ℕ} (h : s.Ok L t) :
    Conserved s L := by
  have htotal : s.buddy.totalPages = t := congrArg Prod.fst h.rep.counters
  have hfree : s.buddy.freeCount = t - pages s.held := congrArg Prod.snd h.rep.counters
  have hmem : ∀ o ≤ maxOrder, ∀ a ∈ L o, (a, o) ∈ blocks (maxOrder + 1) L ++ s.held :=
    fun o ho a ha => List.mem_append_left _ (mem_blocks.mpr ⟨by omega, ha⟩)
  refine ⟨fun o ho => h.rep.chain o (by omega), fun o ho a ha => ?_, h.rep.tiled.packed.disjoint, ?_, ?_,
    ?_⟩
  · have hin := h.rep.tiled.packed.inRange (hmem o ho a ha)
    rw [htotal]
    exact ⟨h.rep.tiled.aligned _ (hmem o ho a ha), hin⟩
  · intro p
    rw [htotal]
    exact h.rep.tiled.covered
  · have hall := h.rep.tiled.all
    omega
  · intro order b halloc
    rcases h.rep.alloc order with ⟨a, b', L', hsome, -, -⟩ | ⟨-, hnone⟩
    · rw [hsome] at halloc
      cases halloc
    · exact hnone

theorem Managed.Ok.run {s : Managed} {L : ℕ → List ℕ} {t : ℕ} (h : s.Ok L t) {c : BuddyCall}
    (hlegal : c.Legal s) (hmerges : c.Merges s) : ∃ s' L', c.run s = some s' ∧ s'.Ok L' t := by
  cases c with
  | alloc order =>
    rcases h.rep.alloc order with ⟨a, b', L', hsome, horder, hrep⟩ | ⟨hnone, -⟩
    · refine ⟨_, L', by rw [BuddyCall.run, hsome]; rfl, hrep, ?_⟩
      intro block hb
      rcases List.mem_cons.mp hb with rfl | hb
      · exact horder
      · exact h.order block hb
    · exact ⟨_, L, by rw [BuddyCall.run, hnone]; rfl, h.rep, h.order⟩
  | free pfn order =>
    obtain ⟨b', L', hb', hrep⟩ := h.rep.free hlegal (h.order _ hlegal) hmerges
    refine ⟨_, L', by rw [BuddyCall.run, hb']; rfl, hrep, ?_⟩
    exact fun block hb => h.order block (List.mem_of_mem_erase hb)

/-- **The free blocks and the held blocks tile the managed pages in every state of a run, and no
call panics**, when no freed block is merged with one in the middle of a free list. -/
theorem conserved_run (totalBytes : ℕ) (calls : List BuddyCall)
    (hlegal : Run.Along buddyStep (fun s c => ∀ m, s = some m → c.Legal m) (buddyInit totalBytes)
      calls)
    (hmerges : Run.Along buddyStep (fun s c => ∀ m, s = some m → c.Merges m)
      (buddyInit totalBytes) calls) :
    ∃ s L, Run.exec buddyStep (buddyInit totalBytes) calls = some s ∧ Conserved s L := by
  have hinv : ∃ s L t, Run.exec buddyStep (buddyInit totalBytes) calls = some s ∧ s.Ok L t := by
    refine @Run.exec_invariant_along _ _ buddyStep _ (fun s => ∃ m L t, s = some m ∧ m.Ok L t) ?_ _
      ?_ _ (Run.along_and hlegal hmerges)
    · rintro s c ⟨m, L, t, rfl, hok⟩ ⟨hl, hm⟩
      obtain ⟨s', L', hs', hok'⟩ := hok.run (hl m rfl) (hm m rfl)
      exact ⟨s', L', t, hs', hok'⟩
    · obtain ⟨b, L, t, hb, hrep⟩ := Buddy.rep_new totalBytes
      exact ⟨_, L, t, by rw [buddyInit, hb]; rfl, hrep, by simp⟩
  obtain ⟨s, L, t, hs, hok⟩ := hinv
  exact ⟨s, L, hs, hok.conserved⟩

/-- A region of six pages: a page is taken and given back, and is merged with its buddy. -/
theorem conserved_run_page : ∃ s L, Run.exec buddyStep (buddyInit 24576)
    [.alloc 0, .free 4 0] = some s ∧ Conserved s L := by
  refine conserved_run _ _ ⟨fun _ _ => trivial, ?_, trivial⟩ ⟨fun _ _ => trivial, ?_, trivial⟩
  · intro m hm
    cases hm
    exact List.mem_cons_self ..
  · intro m hm
    cases hm
    refine fun _ => ⟨.inl rfl, fun hfree => ?_⟩
    exact absurd hfree (by decide)

/-- Six pages are taken one by one; four of them are given back, and the last one is merged with
the second of the three in the list. -/
def middleMerge : List BuddyCall :=
  [.alloc 0, .alloc 0, .alloc 0, .alloc 0, .alloc 0, .alloc 0,
    .free 0 0, .free 2 0, .free 4 0, .free 3 0]

/-- **The merge loses page 0**: it is in no list, and nobody holds it. -/
theorem merge_loses_tail :
    Run.Along buddyStep (fun s c => ∀ m, s = some m → c.Legal m) (buddyInit 24576) middleMerge ∧
      ∃ s, Run.exec buddyStep (buddyInit 24576) middleMerge = some s ∧ ∀ L, ¬ Conserved s L := by
  have hrun : ∃ s, Run.exec buddyStep (buddyInit 24576) middleMerge = some s ∧
      s.held = [(1, 0), (5, 0)] ∧ s.buddy.totalPages = 6 ∧
      (∀ o < 11, s.buddy.head o = if o = 0 then some 4 else if o = 1 then some 2 else none) ∧
      s.buddy.next 4 = none ∧ s.buddy.next 2 = none :=
    ⟨_, rfl, rfl, rfl, by decide, rfl, rfl⟩
  constructor
  · refine ⟨?_, ?_, ?_, ?_, ?_, ?_, ?_, ?_, ?_, ?_, trivial⟩ <;> intro m hm <;> cases hm <;> decide
  · obtain ⟨s, hs, hheld, htotal, hhead, h4, h2⟩ := hrun
    refine ⟨s, hs, fun L hc => ?_⟩
    obtain ⟨⟨a, o⟩, hmem, hcov⟩ := (hc.cover 0).mp (by rw [htotal]; decide)
    rw [hheld, List.mem_append, mem_blocks] at hmem
    rcases hmem with ⟨ho, ha⟩ | hmem
    · have hch := hc.lists o (Nat.le_of_lt_succ ho)
      rw [hhead o ho] at hch
      by_cases h0 : o = 0
      · subst h0
        rw [Chain.eq_singleton hch h4] at ha
        obtain rfl := List.mem_singleton.mp ha
        exact absurd hcov (by decide)
      · by_cases h1 : o = 1
        · subst h1
          rw [Chain.eq_singleton hch h2] at ha
          obtain rfl := List.mem_singleton.mp ha
          exact absurd hcov (by decide)
        · rw [if_neg h0, if_neg h1] at hch
          cases hl : L o with
          | nil => simp [hl] at ha
          | cons x l =>
            rw [hl] at hch
            cases hch.1
    · simp only [List.mem_cons, List.not_mem_nil, or_false, Prod.mk.injEq] at hmem
      rcases hmem with ⟨rfl, rfl⟩ | ⟨rfl, rfl⟩
      · exact absurd hcov (by decide)
      · exact absurd hcov (by decide)

end QuackOS.Vm
