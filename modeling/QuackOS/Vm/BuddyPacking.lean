import QuackOS.Lib.Tiling
import QuackOS.Vm.Buddy

/-!
# What the buddy allocator never does

`pop_free_at` may lose blocks, and a caller may free any pages it has, cut as it likes.  Whatever it
frees, no page gets into two places.

* `Packs` — the lists of the allocator and the blocks handed out share no page;
* `Packs.alloc`, `Packs.free` — **every call keeps it, and its counter, without a panic**.
-/

namespace QuackOS.Vm

open Links Tiling

namespace Buddy

variable {b : Buddy} {L : ℕ → List ℕ} {held : List (ℕ × ℕ)} {c : ℕ × ℕ} {t a q o : ℕ}

/-- The link table holds the lists, and no page below `t` is in two blocks. -/
structure Packs (c : ℕ × ℕ) (t : ℕ) (b : Buddy) (L : ℕ → List ℕ) (held : List (ℕ × ℕ)) : Prop where
  counters : (b.totalPages, b.freeCount) = c
  chain : ∀ o < maxOrder + 1, Chain b.next (b.head o) (L o)
  packed : Packed t (maxOrder + 1) L held
  small : t ≤ maxManagedPages

/-! ## The loops over one list -/

theorem findOrder_eq_none {order : ℕ} (h : b.findOrder order = none) :
    ∀ o, order ≤ o → o ≤ maxOrder → b.head o = none := by
  intro o hle ho
  have := List.find?_eq_none.mp h o (by
    rw [List.mem_range'_1]
    omega)
  simpa using this

theorem findOrder_eq_some {order : ℕ} (h : b.findOrder order = some o) :
    order ≤ o ∧ o < maxOrder + 1 ∧ (b.head o).isSome := by
  rw [findOrder] at h
  have hmem := List.mem_of_find?_eq_some h
  have hsome := List.find?_some h
  rw [List.mem_range'_1] at hmem
  exact ⟨hmem.1, by omega, hsome⟩

/-- The loop of `is_free` looks for the block in the list. -/
theorem isFreeLoop_eq {cur : Option ℕ} {l : List ℕ} (hch : Chain b.next cur l) {fuel : ℕ}
    (hfuel : l.length < fuel) : b.isFreeLoop q fuel cur = some (decide (q ∈ l)) := by
  induction l generalizing cur fuel with
  | nil =>
    obtain ⟨fuel, rfl⟩ := Nat.exists_eq_succ_of_ne_zero (Nat.ne_of_gt hfuel)
    rw [chain_nil.mp hch]
    simp [isFreeLoop]
  | cons x l ih =>
    rw [List.length_cons] at hfuel
    obtain ⟨fuel, rfl⟩ := Nat.exists_eq_succ_of_ne_zero (show fuel ≠ 0 by omega)
    rw [hch.1]
    by_cases hx : x = q
    · simp [isFreeLoop, hx]
    · have hx' : q ≠ x := fun h => hx h.symm
      simp only [isFreeLoop, if_neg hx, ih hch.2 (show l.length < fuel by omega), List.mem_cons,
        hx', false_or]

/-- What `pop_free_at` does to the links when it finds the block behind `prev`. -/
def unlinked (b : Buddy) (q o : ℕ) : Option ℕ → Buddy
  | none => { b with
      next := Function.update b.next q none
      head := Function.update b.head o (b.next q) }
  | some p => { b with next := Function.update (Function.update b.next q none) p none }

theorem popFreeAtLoop_eq {A l : List ℕ} {prev cur : Option ℕ} (hch : Chain b.next cur (A ++ q :: l))
    (hq : q ∉ A) {fuel : ℕ} (hfuel : A.length < fuel) :
    b.popFreeAtLoop q o fuel prev cur = some (b.unlinked q o (A.getLast?.or prev)) := by
  induction A generalizing prev cur fuel with
  | nil =>
    obtain ⟨fuel, rfl⟩ := Nat.exists_eq_succ_of_ne_zero (Nat.ne_of_gt hfuel)
    rw [hch.1]
    cases prev with
    | none => simp [popFreeAtLoop, unlinked]
    | some p => simp [popFreeAtLoop, unlinked]
  | cons x A ih =>
    rw [List.length_cons] at hfuel
    rw [List.mem_cons, not_or] at hq
    obtain ⟨fuel, rfl⟩ := Nat.exists_eq_succ_of_ne_zero (show fuel ≠ 0 by omega)
    have hrest := @ih (some x) _ hch.2 hq.2 fuel (by omega)
    have hlast : (x :: A).getLast?.or prev = A.getLast?.or (some x) := by
      cases A with
      | nil => rfl
      | cons y A =>
        rw [List.getLast?_cons_cons, List.getLast?_eq_some_getLast (List.cons_ne_nil y A)]
        rfl
    have hx : x ≠ q := fun h => hq.1 h.symm
    rw [hch.1, hlast, ← hrest, popFreeAtLoop, if_neg hx]

namespace Packs

theorem threaded (h : Packs c t b L held) : Threaded (maxOrder + 1) b.next b.head L :=
  h.packed.threaded h.chain

/-- The same pages held in other blocks. -/
theorem of_countP {held' : List (ℕ × ℕ)} (h : Packs c t b L held)
    (heq : ∀ p, held'.countP (covers p) = held.countP (covers p)) : Packs c t b L held' :=
  ⟨h.counters, h.chain, h.packed.of_countP fun p => (heq p).le, h.small⟩

/-! ## Taking and giving back a block -/

theorem pushFree (h : Packs c t b L ((a, o) :: held)) (ho : o < maxOrder + 1) :
    ∃ b', b.pushFree a o = some b' ∧ Packs c t b' (Function.update L o (a :: L o)) held := by
  have hin : a + 2 ^ o ≤ t := @Packed.inRange _ _ _ _ h.packed (a, o) (by simp)
  have hlt : a < maxManagedPages := by
    have := Nat.two_pow_pos o
    have := h.small
    omega
  refine ⟨_, if_pos hlt, h.counters, fun k hk => ?_, h.packed.put ho, h.small⟩
  exact h.threaded.push (fun k hk => h.packed.notMem_of_held hk) hk

/-- The first block of a list is taken out. -/
theorem takeHead (h : Packs c t b L held) (ho : o < maxOrder + 1) {l : List ℕ}
    (hl : L o = a :: l) :
    Packs c t { b with
      next := Function.update b.next a none
      head := Function.update b.head o (b.next a) } (Function.update L o l) ((a, o) :: held) := by
  refine ⟨h.counters, fun _ hk => h.threaded.pop ho hl hk, h.packed.take ho ?_, h.small⟩
  rw [hl]

/-- A block is taken out behind another one, and the rest of the list is lost. -/
theorem takeMiddle (h : Packs c t b L held) (ho : o < maxOrder + 1) {A l : List ℕ} {p : ℕ}
    (hl : L o = A ++ p :: a :: l) :
    Packs c t { b with next := Function.update (Function.update b.next a none) p none }
      (Function.update L o (A ++ [p])) ((a, o) :: held) := by
  refine ⟨h.counters, fun _ hk => h.threaded.cut ho hl hk, h.packed.take ho ?_, h.small⟩
  have hsplit : L o = A ++ [p] ++ a :: l := by
    rw [hl, List.append_assoc]
    rfl
  rw [hsplit]
  refine ⟨A ++ [p] ++ [a], List.perm_append_singleton a (A ++ [p]), ?_⟩
  exact (List.singleton_sublist.mpr (List.mem_cons_self ..)).append_left _

theorem popFree (h : Packs c t b L held) (ho : o < maxOrder + 1) (hhead : (b.head o).isSome) :
    ∃ a b' L', b.popFree o = some (a, b') ∧ Packs c t b' L' ((a, o) :: held) := by
  have hch := h.chain o ho
  cases hl : L o with
  | nil =>
    rw [hl, chain_nil] at hch
    rw [hch] at hhead
    cases hhead
  | cons a l =>
    rw [hl] at hch
    refine ⟨a, _, _, ?_, h.takeHead ho hl⟩
    rw [Buddy.popFree, hch.1]
    rfl

theorem splitLoop {order : ℕ} (h : Packs c t b L ((a, o) :: held)) (ho : o < maxOrder + 1)
    (hle : order ≤ o) :
    ∃ b' L', splitLoop a order o b = some b' ∧ Packs c t b' L' ((a, order) :: held) := by
  induction o generalizing b L with
  | zero =>
    obtain rfl : order = 0 := Nat.le_zero.mp hle
    exact ⟨b, L, rfl, h⟩
  | succ o ih =>
    by_cases hlt : order < o + 1
    · have hcut : Packs c t b L ((a, o) :: (a + 2 ^ o, o) :: held) :=
        ⟨h.counters, h.chain, Packed.cut_iff.mp h.packed, h.small⟩
      obtain ⟨b', hb', hpack⟩ := (hcut.of_countP fun p =>
        (List.Perm.swap _ _ _).countP_eq _).pushFree (by omega)
      obtain ⟨b'', L'', hb'', hpack'⟩ := ih hpack (by omega) (by omega)
      refine ⟨b'', L'', ?_, hpack'⟩
      simp only [Buddy.splitLoop, if_pos hlt, hb', Option.bind_eq_bind, Option.bind_some, hb'']
    · obtain rfl : order = o + 1 := by omega
      exact ⟨b, L, if_neg hlt, h⟩

/-! ## Merging -/

theorem isFree (h : Packs c t b L held) (ht : c.1 = t) (ho : o < maxOrder + 1) :
    b.isFree q o = some (decide (q ∈ L o)) := by
  have hlen := h.packed.length_le ho
  have htotal : b.totalPages = t := (congrArg Prod.fst h.counters).trans ht
  exact isFreeLoop_eq (h.chain o ho) (by omega)

/-- A block is taken out of its list; behind the first place the rest of the list is lost. -/
theorem popFreeAt (h : Packs c t b L held) (ht : c.1 = t) (ho : o < maxOrder + 1)
    (hq : q ∈ L o) :
    ∃ b' L', b.popFreeAt q o = some b' ∧ Packs c t b' L' ((q, o) :: held) := by
  have hlen := h.packed.length_le ho
  have htotal : b.totalPages = t := (congrArg Prod.fst h.counters).trans ht
  have hch := h.chain o ho
  have hnd := h.packed.nodup_list ho
  obtain ⟨A, l, hl⟩ := List.append_of_mem hq
  rw [hl] at hch hnd hlen
  have hqA : q ∉ A := fun hA => (List.nodup_append.mp hnd).2.2 q hA q (by simp) rfl
  rw [List.length_append, List.length_cons] at hlen
  have hloop := @popFreeAtLoop_eq b q o A l none _ hch hqA (b.totalPages + 1) (by omega)
  rcases List.eq_nil_or_concat A with rfl | ⟨A, p, rfl⟩
  · exact ⟨_, _, hloop, h.takeHead ho hl⟩
  · rw [List.concat_eq_append] at hl hloop
    rw [List.getLast?_concat] at hloop
    refine ⟨_, _, hloop, h.takeMiddle ho (A := A) (p := p) (l := l) ?_⟩
    rw [hl, List.append_assoc]
    rfl

theorem mergeLoop {n : ℕ} (h : Packs c t b L ((a, o) :: held)) (ht : c.1 = t)
    (hn : o + n ≤ maxOrder) :
    ∃ a' o' b' L', mergeLoop n a o b = some (a', o', b') ∧ o' < maxOrder + 1 ∧
      Packs c t b' L' ((a', o') :: held) := by
  induction n generalizing b L a o with
  | zero => exact ⟨a, o, b, L, rfl, by omega, h⟩
  | succ n ih =>
    have ho : o < maxOrder + 1 := by omega
    have hfree := @Packs.isFree b L _ c t (a ^^^ 2 ^ o) o h ht ho
    by_cases hmem : a ^^^ 2 ^ o ∈ L o
    · rw [decide_eq_true hmem] at hfree
      obtain ⟨b', L', hb', hpack⟩ := h.popFreeAt ht ho hmem
      have hjoin : Packs c t b' L' ((min a (a ^^^ 2 ^ o), o + 1) :: held) :=
        ⟨hpack.counters, hpack.chain, hpack.packed.join, hpack.small⟩
      obtain ⟨a', o', b'', L'', hloop, ho', hpack'⟩ := ih hjoin (by omega)
      refine ⟨a', o', b'', L'', ?_, ho', hpack'⟩
      simp only [Buddy.mergeLoop, hfree, Option.bind_eq_bind, Option.bind_some, if_true, hb', hloop]
    · rw [decide_eq_false hmem] at hfree
      refine ⟨a, o, b, L, ?_, ho, h⟩
      simp [Buddy.mergeLoop, hfree]

/-! ## The whole calls -/

/-- `alloc` hands out a block, or changes nothing. -/
theorem alloc (h : Packs (t, t - pages held) t b L held) (order : ℕ) :
    (∃ a b' L', b.alloc order = some (some a, b') ∧ order ≤ maxOrder ∧
      Packs (t, t - pages ((a, order) :: held)) t b' L' ((a, order) :: held)) ∨
      b.alloc order = some (none, b) := by
  cases hfind : b.findOrder order with
  | none =>
    right
    rw [Buddy.alloc, hfind]
  | some o =>
    left
    obtain ⟨hle, ho, hhead⟩ := findOrder_eq_some hfind
    obtain ⟨a, b₁, L₁, hpop, hpack₁⟩ := h.popFree ho hhead
    obtain ⟨b₂, L₂, hsplit, hpack₂⟩ := hpack₁.splitLoop ho hle
    have htotal : b₂.totalPages = t := congrArg Prod.fst hpack₂.counters
    have hfree : b₂.freeCount = t - pages held := congrArg Prod.snd hpack₂.counters
    have hall := hpack₂.packed.pages_le
    rw [pages_cons] at hall
    have hroom : 2 ^ order ≤ b₂.freeCount := by
      rw [hfree]
      omega
    refine ⟨a, { b₂ with freeCount := b₂.freeCount - 2 ^ order }, L₂, ?_, by omega, ?_⟩
    · simp only [Buddy.alloc, hfind, hpop, Option.bind_eq_bind, Option.bind_some, hsplit,
        if_pos hroom]
      rfl
    · refine ⟨?_, hpack₂.chain, hpack₂.packed, hpack₂.small⟩
      refine Prod.ext htotal ?_
      show b₂.freeCount - 2 ^ order = t - pages ((a, order) :: held)
      rw [pages_cons, hfree]
      omega

/-- `free` takes any block back whose pages are held. -/
theorem free (h : Packs (t, t - pages ((a, o) :: held)) t b L ((a, o) :: held))
    (ho : o ≤ maxOrder) :
    ∃ b' L', b.free a o = some b' ∧ Packs (t, t - pages held) t b' L' held := by
  obtain ⟨a', o', b₁, L₁, hloop, ho', hpack₁⟩ :=
    h.mergeLoop rfl (show o + (maxOrder - o) ≤ maxOrder by omega)
  obtain ⟨b₂, hpush, hpack₂⟩ := hpack₁.pushFree ho'
  have htotal : b₂.totalPages = t := congrArg Prod.fst hpack₂.counters
  have hfree : b₂.freeCount = t - pages ((a, o) :: held) := congrArg Prod.snd hpack₂.counters
  have hall := h.packed.pages_le
  have hsize := Nat.two_pow_pos o
  rw [pages_cons] at hfree hall
  refine ⟨{ b₂ with freeCount := b₂.freeCount + 2 ^ o }, _, ?_, ?_, hpack₂.chain, hpack₂.packed,
    hpack₂.small⟩
  · simp only [Buddy.free, if_neg (show ¬ maxOrder < o by omega), hloop, Option.bind_eq_bind,
      Option.bind_some, hpush]
    rfl
  · refine Prod.ext htotal ?_
    show b₂.freeCount + 2 ^ o = t - pages held
    omega

end Packs

end Buddy

end QuackOS.Vm
