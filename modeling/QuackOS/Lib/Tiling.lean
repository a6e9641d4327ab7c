import Mathlib.Data.Nat.Bitwise
import Mathlib.Data.List.Nodup
import Mathlib.Algebra.BigOperators.Group.Finset.Piecewise
import Mathlib.Algebra.Order.BigOperators.Group.Finset
import Mathlib.Order.Interval.Finset.Nat
import QuackOS.Lib.Links

/-!
# Tilings by binary blocks

A block of order `o` at `a` is the range `[a, a + 2 ^ o)`.  Some blocks are kept in lists, one
list for each order, and the others are held.  `Tiled` says that every page below a bound is in
exactly one of them, and `Packed` that none is in two; they are counts, so that a block that moves,
is cut in two or is joined with another changes both sides alike.

* `Tiled.put`, `Tiled.take` — a block moves between its list and the held ones;
* `Tiled.cut_iff` — a held block is cut into its halves, two halves are joined;
* `Packed.disjoint`, `Packed.inRange`, `Packed.pages_le`, `Tiled.covered` — what the counts say;
* `Packed.take`, `Packed.join` — blocks may also be lost, and buddies are joined wherever they lie.
-/

namespace QuackOS.Tiling

/-- The page is one of the block's. -/
def covers (p : ℕ) (block : ℕ × ℕ) : Bool := decide (block.1 ≤ p ∧ p < block.1 + 2 ^ block.2)

/-- The blocks of the lists. -/
def blocks (n : ℕ) (L : ℕ → List ℕ) : List (ℕ × ℕ) :=
  (List.range n).flatMap fun o => (L o).map fun a => (a, o)

/-- The pages of a list of blocks. -/
def pages (held : List (ℕ × ℕ)) : ℕ := (held.map fun block => 2 ^ block.2).sum

section Blocks

variable {n : ℕ} {L : ℕ → List ℕ} {a o p : ℕ} {held : List (ℕ × ℕ)}

@[simp] theorem mem_blocks : (a, o) ∈ blocks n L ↔ o < n ∧ a ∈ L o := by
  simp only [blocks, List.mem_flatMap, List.mem_range, List.mem_map, Prod.mk.injEq]
  constructor
  · rintro ⟨k, hk, x, hx, rfl, rfl⟩
    exact ⟨hk, hx⟩
  · rintro ⟨ho, ha⟩
    exact ⟨o, ho, a, ha, rfl, rfl⟩

theorem countP_blocks (f : ℕ × ℕ → Bool) : (blocks n L).countP f =
    ∑ o ∈ Finset.range n, ((L o).map fun a => (a, o)).countP f := by
  rw [blocks, List.countP_flatMap]
  rfl

theorem pages_blocks : pages (blocks n L) = ∑ o ∈ Finset.range n, (L o).length * 2 ^ o := by
  have hone : ∀ o, (((L o).map fun a => (a, o)).map fun block : ℕ × ℕ => 2 ^ block.2).sum =
      (L o).length * 2 ^ o := by
    intro o
    induction L o with
    | nil => simp
    | cons a l ih =>
      simp only [List.map_cons, List.sum_cons, List.length_cons] at ih ⊢
      rw [ih, Nat.succ_mul, Nat.add_comm]
  rw [pages, blocks, List.map_flatMap, List.flatMap_def, List.sum_flatten, List.map_map]
  simp only [Function.comp_def, hone]
  rfl

@[simp] theorem pages_cons : pages ((a, o) :: held) = 2 ^ o + pages held := by
  simp [pages]

theorem covers_self (block : ℕ × ℕ) : covers block.1 block = true := by
  have := Nat.two_pow_pos block.2
  simp only [covers, decide_eq_true_eq]
  omega

theorem covers_last (block : ℕ × ℕ) : covers (block.1 + 2 ^ block.2 - 1) block = true := by
  have := Nat.two_pow_pos block.2
  simp only [covers, decide_eq_true_eq]
  omega

end Blocks

/-! ## Single pages -/

/-- Single pages, as blocks. -/
def singles (l : List ℕ) : List (ℕ × ℕ) := l.map (·, 0)

@[simp] theorem countP_singles (l : List ℕ) (p : ℕ) : (singles l).countP (covers p) = l.count p := by
  rw [singles, List.countP_map, List.count]
  refine List.countP_congr fun q _ => ?_
  simp only [Function.comp_apply, covers, pow_zero, decide_eq_true_eq, beq_iff_eq]
  omega

@[simp] theorem pages_singles (l : List ℕ) : pages (singles l) = l.length := by
  induction l with
  | nil => rfl
  | cons p l ih =>
    rw [singles, List.map_cons, pages_cons, ← singles, ih, List.length_cons, pow_zero,
      Nat.add_comm]

/-- A block has the pages of its range. -/
theorem count_range_block (a o p : ℕ) :
    (List.range' a (2 ^ o)).count p = if covers p (a, o) then 1 else 0 := by
  rw [List.count_range_1']
  simp only [covers, decide_eq_true_eq]

/-! ## Blocks that share no page -/

/-- A block that moves between its list and the held ones is counted all the same. -/
theorem countP_move {n o a : ℕ} {L : ℕ → List ℕ} {held : List (ℕ × ℕ)} {l : List ℕ}
    (f : ℕ × ℕ → Bool) (ho : o < n) (hp : l.Perm (a :: L o)) :
    (blocks n (Function.update L o l)).countP f + held.countP f =
      (blocks n L).countP f + ((a, o) :: held).countP f := by
  have hsum := Links.sum_update ho (fun k l => (l.map fun a => (a, k)).countP f) L l
  have hl : (l.map fun a => (a, o)).countP f =
      ((a, o) :: (L o).map fun a => (a, o)).countP f := (hp.map fun a => (a, o)).countP_eq _
  rw [countP_blocks, countP_blocks]
  rw [hl] at hsum
  simp only [List.countP_cons] at hsum ⊢
  omega

/-- A block is as many times counted as its two halves are. -/
theorem covers_halves (p a o : ℕ) : (if covers p (a, o + 1) then 1 else 0) =
    (if covers p (a, o) then 1 else 0) + if covers p (a + 2 ^ o, o) then 1 else 0 := by
  have h2 : 2 ^ (o + 1) = 2 ^ o + 2 ^ o := by rw [pow_succ]; omega
  simp only [covers, h2, decide_eq_true_eq]
  split_ifs <;> omega

theorem inRange_of_countP {l : List (ℕ × ℕ)} {total : ℕ} {block : ℕ × ℕ}
    (h : ∀ p, l.countP (covers p) ≤ if p < total then 1 else 0) (hb : block ∈ l) :
    block.1 + 2 ^ block.2 ≤ total := by
  have hlast := h (block.1 + 2 ^ block.2 - 1)
  have hpos : 0 < l.countP (covers (block.1 + 2 ^ block.2 - 1)) :=
    List.countP_pos_iff.mpr ⟨block, hb, covers_last block⟩
  have := Nat.two_pow_pos block.2
  split at hlast <;> omega

/-- The pages of blocks that share none. -/
theorem pages_le_of_countP {l : List (ℕ × ℕ)} {total : ℕ}
    (h : ∀ p, l.countP (covers p) ≤ if p < total then 1 else 0) : pages l ≤ total := by
  have hin : ∀ block ∈ l, block.1 + 2 ^ block.2 ≤ total := fun block hb => inRange_of_countP h hb
  have hsum : pages l = ∑ p ∈ Finset.range total, l.countP (covers p) := by
    clear h
    induction l with
    | nil => simp [pages]
    | cons block l ih =>
      obtain ⟨a, o⟩ := block
      have ha : a + 2 ^ o ≤ total := hin (a, o) (List.mem_cons_self ..)
      have hone : ∑ p ∈ Finset.range total, (if covers p (a, o) then 1 else 0) = 2 ^ o := by
        rw [← Finset.card_filter]
        have hfilter : (Finset.range total).filter (fun p => covers p (a, o) = true) =
            Finset.Ico a (a + 2 ^ o) := by
          ext p
          simp only [covers, Finset.mem_filter, Finset.mem_range, Finset.mem_Ico,
            decide_eq_true_eq]
          omega
        rw [hfilter, Nat.card_Ico, Nat.add_sub_cancel_left]
      simp only [pages_cons, List.countP_cons, Finset.sum_add_distrib, hone]
      rw [ih fun block hb => hin block (List.mem_cons_of_mem _ hb), Nat.add_comm]
  calc pages l = ∑ p ∈ Finset.range total, l.countP (covers p) := hsum
    _ ≤ ∑ _p ∈ Finset.range total, 1 := by
      refine Finset.sum_le_sum fun p _ => ?_
      have := h p
      split at this <;> omega
    _ = total := by simp

/-- No page is in two blocks, and every page of a block is below `total`. -/
def Packed (total n : ℕ) (L : ℕ → List ℕ) (held : List (ℕ × ℕ)) : Prop :=
  ∀ p, (blocks n L).countP (covers p) + held.countP (covers p) ≤ if p < total then 1 else 0

namespace Packed

variable {total n : ℕ} {L : ℕ → List ℕ} {held held' : List (ℕ × ℕ)} {a o k : ℕ}

/-! ### What the count says -/

theorem countP_append (h : Packed total n L held) (p : ℕ) :
    (blocks n L ++ held).countP (covers p) ≤ if p < total then 1 else 0 := by
  rw [List.countP_append]
  exact h p

theorem disjoint (h : Packed total n L held) :
    (blocks n L ++ held).Pairwise fun x y => ∀ p, ¬ (covers p x = true ∧ covers p y = true) := by
  have hle : ∀ p, (blocks n L ++ held).countP (covers p) ≤ 1 := by
    intro p
    have := h.countP_append p
    split at this <;> omega
  clear h
  revert hle
  induction blocks n L ++ held with
  | nil => simp
  | cons x l ih =>
    intro hle
    refine List.pairwise_cons.mpr ⟨fun y hy p hp => ?_, ih fun p => ?_⟩
    · have h1 := hle p
      rw [List.countP_cons_of_pos hp.1] at h1
      have h2 : 0 < l.countP (covers p) := List.countP_pos_iff.mpr ⟨y, hy, hp.2⟩
      omega
    · have h1 := hle p
      rw [List.countP_cons] at h1
      omega

theorem inRange (h : Packed total n L held) {block : ℕ × ℕ} (hb : block ∈ blocks n L ++ held) :
    block.1 + 2 ^ block.2 ≤ total := inRange_of_countP h.countP_append hb

/-- No two blocks have the same first page. -/
theorem nodup_bases (h : Packed total n L held) :
    ((blocks n L ++ held).map Prod.fst).Nodup := by
  rw [List.Nodup, List.pairwise_map]
  refine h.disjoint.imp fun {x y} hxy heq => hxy x.1 ⟨covers_self x, ?_⟩
  rw [heq]
  exact covers_self y

theorem nodup_list (h : Packed total n L held) (ho : o < n) : (L o).Nodup := by
  have hnd := (List.nodup_append.mp (List.map_append ▸ h.nodup_bases)).1
  rw [blocks, List.map_flatMap, List.nodup_flatMap] at hnd
  have hmap := hnd.1 o (List.mem_range.mpr ho)
  rw [List.map_map] at hmap
  exact hmap.of_map _

theorem notMem_list (h : Packed total n L held) (ho : o < n) (hk : k < n) (hne : o ≠ k)
    (ha : a ∈ L o) : a ∉ L k := by
  intro hak
  have := List.inj_on_of_nodup_map h.nodup_bases
    (List.mem_append_left held (mem_blocks.mpr ⟨ho, ha⟩))
    (List.mem_append_left held (mem_blocks.mpr ⟨hk, hak⟩)) rfl
  exact hne (congrArg Prod.snd this)

theorem notMem_of_held (h : Packed total n L ((a, o) :: held)) (hk : k < n) : a ∉ L k := by
  intro hak
  have hnd := h.nodup_bases
  rw [List.map_append] at hnd
  refine (List.nodup_append.mp hnd).2.2 a ?_ a (by simp) rfl
  exact List.mem_map.mpr ⟨(a, k), mem_blocks.mpr ⟨hk, hak⟩, rfl⟩

/-- Chained lists that are packed are threaded. -/
theorem threaded {next head : ℕ → Option ℕ} (h : Packed total n L held)
    (hch : ∀ o < n, Links.Chain next (head o) (L o)) : Links.Threaded n next head L :=
  ⟨hch, fun _ ho => h.nodup_list ho, fun _ ho _ hk hne _ ha => h.notMem_list ho hk hne ha⟩

theorem pages_le (h : Packed total n L held) : pages (blocks n L) + pages held ≤ total := by
  have := pages_le_of_countP h.countP_append
  rwa [pages, List.map_append, List.sum_append] at this

theorem length_le (h : Packed total n L held) (ho : o < n) : (L o).length ≤ total := by
  have hall := h.pages_le
  rw [pages_blocks] at hall
  have hle : (L o).length * 2 ^ o ≤ ∑ o ∈ Finset.range n, (L o).length * 2 ^ o :=
    Finset.single_le_sum (f := fun o => (L o).length * 2 ^ o) (fun _ _ => Nat.zero_le _)
      (Finset.mem_range.mpr ho)
  have := Nat.le_mul_of_pos_right (L o).length (Nat.two_pow_pos o)
  omega

/-! ### Moving, cutting and joining -/

/-- Only the count of the held blocks matters, and it may go down. -/
theorem of_countP (h : Packed total n L held)
    (hle : ∀ p, held'.countP (covers p) ≤ held.countP (covers p)) : Packed total n L held' := by
  intro p
  have h1 := h p
  have h2 := hle p
  omega

theorem put (h : Packed total n L ((a, o) :: held)) (ho : o < n) :
    Packed total n (Function.update L o (a :: L o)) held := by
  intro p
  rw [countP_move (covers p) ho (List.Perm.refl _)]
  exact h p

/-- A listed block becomes held, and some others of its list may be lost. -/
theorem take (h : Packed total n L held) (ho : o < n) {l : List ℕ} (hl : (a :: l).Subperm (L o)) :
    Packed total n (Function.update L o l) ((a, o) :: held) := by
  intro p
  have hmove := @countP_move n o a (Function.update L o l) held (a :: l) (covers p) ho
    (by rw [Function.update_self])
  rw [Function.update_idem] at hmove
  have hsum := Links.sum_update ho (fun k l => (l.map fun a => (a, k)).countP (covers p)) L (a :: l)
  have hle : ((a :: l).map fun a => (a, o)).countP (covers p) ≤
      ((L o).map fun a => (a, o)).countP (covers p) := by
    obtain ⟨m, hm, hsub⟩ := hl
    rw [← (hm.map fun a => (a, o)).countP_eq]
    exact (hsub.map _).countP_le
  rw [← countP_blocks, ← countP_blocks] at hsum
  have := h p
  omega

/-- A held block is as good as its two halves. -/
theorem cut_iff : Packed total n L ((a, o + 1) :: held) ↔
    Packed total n L ((a, o) :: (a + 2 ^ o, o) :: held) := by
  refine forall_congr' fun p => ?_
  have := covers_halves p a o
  simp only [List.countP_cons]
  omega

end Packed

/-- Every page below `total` is in exactly one block, and every block is aligned to its size. -/
structure Tiled (total n : ℕ) (L : ℕ → List ℕ) (held : List (ℕ × ℕ)) : Prop where
  aligned : ∀ block ∈ blocks n L ++ held, 2 ^ block.2 ∣ block.1
  once : ∀ p, (blocks n L).countP (covers p) + held.countP (covers p) = if p < total then 1 else 0
  all : pages (blocks n L) + pages held = total

namespace Tiled

variable {total n : ℕ} {L : ℕ → List ℕ} {held : List (ℕ × ℕ)} {a b o k : ℕ}

theorem packed (h : Tiled total n L held) : Packed total n L held := fun p => (h.once p).le

theorem covered (h : Tiled total n L held) {p : ℕ} :
    p < total ↔ ∃ block ∈ blocks n L ++ held, covers p block = true := by
  rw [← List.countP_pos_iff, List.countP_append, h.once]
  split <;> omega

theorem empty : Tiled 0 n (fun _ => []) [] := by
  have hnil : blocks n (fun _ => []) = [] := by simp [blocks]
  refine ⟨?_, fun p => ?_, ?_⟩
  · simp [hnil]
  · simp [hnil]
  · simp [hnil, pages]

/-- A block behind the last page. -/
theorem grow (h : Tiled total n L held) (ho : 2 ^ o ∣ total) :
    Tiled (total + 2 ^ o) n L ((total, o) :: held) := by
  refine ⟨fun block hb => ?_, fun p => ?_, ?_⟩
  · simp only [List.mem_append, List.mem_cons] at hb
    rcases hb with hb | rfl | hb
    · exact h.aligned block (by simp [hb])
    · exact ho
    · exact h.aligned block (by simp [hb])
  · have := h.once p
    simp only [List.countP_cons, covers, decide_eq_true_eq] at *
    split_ifs at * <;> omega
  · have := h.all
    simp only [pages_cons] at *
    omega

/-! ## Moving a block -/

theorem perm (h : Tiled total n L held) {held' : List (ℕ × ℕ)} (hp : held.Perm held') :
    Tiled total n L held' where
  aligned block hb := h.aligned block (by
    rcases List.mem_append.mp hb with hb | hb
    · exact List.mem_append_left _ hb
    · exact List.mem_append_right _ (hp.mem_iff.mpr hb))
  once p := by rw [← hp.countP_eq, h.once]
  all := by
    rw [← h.all, pages, pages, pages, (hp.map _).sum_eq]

/-- A held block goes to its list, or a listed one becomes held. -/
theorem move {l : List ℕ} (ho : o < n) (hp : l.Perm (a :: L o)) :
    Tiled total n (Function.update L o l) held ↔ Tiled total n L ((a, o) :: held) := by
  have hmem : ∀ block, block ∈ blocks n (Function.update L o l) ++ held ↔
      block ∈ blocks n L ++ (a, o) :: held := by
    rintro ⟨x, k⟩
    simp only [List.mem_append, mem_blocks, List.mem_cons, Prod.mk.injEq]
    by_cases hk : k = o
    · subst hk
      rw [Function.update_self, hp.mem_iff, List.mem_cons]
      tauto
    · rw [Function.update_of_ne hk]
      tauto
  have hcount := fun p => @countP_move n o a L held l (covers p) ho hp
  have hpages : pages (blocks n (Function.update L o l)) + pages held =
      pages (blocks n L) + pages ((a, o) :: held) := by
    have hsum := Links.sum_update ho (fun k l => l.length * 2 ^ k) L l
    have hlen := hp.length_eq
    rw [pages_blocks, pages_blocks, pages_cons]
    rw [hlen, List.length_cons, Nat.succ_mul] at hsum
    omega
  constructor
  · intro h
    exact ⟨fun block hb => h.aligned block ((hmem block).mpr hb), fun p => by rw [← hcount, h.once],
      by rw [← hpages, h.all]⟩
  · intro h
    exact ⟨fun block hb => h.aligned block ((hmem block).mp hb), fun p => by rw [hcount, h.once],
      by rw [hpages, h.all]⟩

theorem put (h : Tiled total n L ((a, o) :: held)) (ho : o < n) :
    Tiled total n (Function.update L o (a :: L o)) held :=
  (move ho (List.Perm.refl _)).mpr h

theorem take (h : Tiled total n L held) (ho : o < n) {l : List ℕ} (hp : (L o).Perm (a :: l)) :
    Tiled total n (Function.update L o l) ((a, o) :: held) := by
  refine (move ho (l := L o) ?_).mp ?_
  · rwa [Function.update_self]
  · rwa [Function.update_idem, Function.update_eq_self]

/-! ## Cutting and joining -/

theorem cut_iff : Tiled total n L ((a, o + 1) :: held) ↔
    Tiled total n L ((a, o) :: (a + 2 ^ o, o) :: held) ∧ 2 ^ (o + 1) ∣ a := by
  have h2 : 2 ^ (o + 1) = 2 ^ o + 2 ^ o := by rw [pow_succ]; omega
  constructor
  · intro h
    have hal : 2 ^ (o + 1) ∣ a := h.aligned (a, o + 1) (by simp)
    have hal' : 2 ^ o ∣ a := (pow_dvd_pow 2 (Nat.le_succ o)).trans hal
    refine ⟨⟨fun block hb => ?_, fun p => ?_, ?_⟩, hal⟩
    · simp only [List.mem_append, List.mem_cons] at hb
      rcases hb with hb | rfl | rfl | hb
      · exact h.aligned block (by simp [hb])
      · exact hal'
      · exact (Nat.dvd_add_right hal').mpr (dvd_refl _)
      · exact h.aligned block (by simp [hb])
    · have := h.once p
      have := covers_halves p a o
      simp only [List.countP_cons] at *
      omega
    · have := h.all
      simp only [pages_cons] at *
      omega
  · rintro ⟨h, hal⟩
    refine ⟨fun block hb => ?_, fun p => ?_, ?_⟩
    · simp only [List.mem_append, List.mem_cons] at hb
      rcases hb with hb | rfl | hb
      · exact h.aligned block (by simp [hb])
      · exact hal
      · exact h.aligned block (by simp [hb])
    · have := h.once p
      have := covers_halves p a o
      simp only [List.countP_cons] at *
      omega
    · have := h.all
      simp only [pages_cons] at *
      omega

end Tiled

/-! ## Buddies -/

/-- The buddy of a block is behind it or in front of it. -/
theorem xor_two_pow_cases (a o : ℕ) :
    (a ^^^ 2 ^ o = a + 2 ^ o ∧ a / 2 ^ o % 2 = 0) ∨ (a = (a ^^^ 2 ^ o) + 2 ^ o ∧ a / 2 ^ o % 2 = 1) := by
  have hpos := Nat.two_pow_pos o
  have hself : (2 ^ o) / 2 ^ o = 1 := Nat.div_self hpos
  have hdiv : (a ^^^ 2 ^ o) / 2 ^ o = a / 2 ^ o ^^^ 1 := by
    rw [Nat.xor_div_two_pow, hself]
  have hmod : (a ^^^ 2 ^ o) % 2 ^ o = a % 2 ^ o := by
    rw [Nat.xor_mod_two_pow, Nat.mod_self, Nat.xor_zero]
  have h1 := Nat.div_add_mod a (2 ^ o)
  have h2 := Nat.div_add_mod (a ^^^ 2 ^ o) (2 ^ o)
  rw [hdiv, hmod] at h2
  -- one more or one less, by the last bit of the quotient
  have hxdiv : (a / 2 ^ o ^^^ 1) / 2 = a / 2 ^ o / 2 := by
    rw [Nat.xor_div_two]
    simp
  have hxmod : (a / 2 ^ o ^^^ 1) % 2 = (a / 2 ^ o + 1) % 2 := by
    rw [Nat.xor_mod_two_eq]
  by_cases hbit : a / 2 ^ o % 2 = 0
  · left
    rw [show a / 2 ^ o ^^^ 1 = a / 2 ^ o + 1 by omega, Nat.mul_add, Nat.mul_one] at h2
    omega
  · right
    rw [show a / 2 ^ o = (a / 2 ^ o ^^^ 1) + 1 by omega, Nat.mul_add, Nat.mul_one] at h1
    omega

/-- The buddy of an aligned block is the other half of a block of the next order. -/
theorem xor_two_pow {a o : ℕ} (h : 2 ^ o ∣ a) :
    (a ^^^ 2 ^ o = a + 2 ^ o ∧ 2 ^ (o + 1) ∣ a) ∨
      (a = (a ^^^ 2 ^ o) + 2 ^ o ∧ 2 ^ (o + 1) ∣ a ^^^ 2 ^ o) := by
  obtain ⟨m, rfl⟩ := h
  have hcases := xor_two_pow_cases (2 ^ o * m) o
  rw [Nat.mul_div_cancel_left m (Nat.two_pow_pos o)] at hcases
  rw [pow_succ]
  rcases hcases with ⟨heq, hm⟩ | ⟨heq, hm⟩
  · exact Or.inl ⟨heq, Nat.mul_dvd_mul_left _ (Nat.dvd_of_mod_eq_zero hm)⟩
  · refine Or.inr ⟨heq, ?_⟩
    obtain ⟨k, hk⟩ : 2 ∣ m - 1 := by omega
    refine ⟨k, ?_⟩
    have hm' : m = 2 * k + 1 := by omega
    rw [hm', Nat.mul_add, Nat.mul_one] at heq
    rw [Nat.mul_assoc, hm', Nat.mul_add, Nat.mul_one]
    omega

namespace Packed

/-- A block and its buddy make a block of the next order. -/
theorem join {total n : ℕ} {L : ℕ → List ℕ} {held : List (ℕ × ℕ)} {a o : ℕ}
    (h : Packed total n L ((a ^^^ 2 ^ o, o) :: (a, o) :: held)) :
    Packed total n L ((min a (a ^^^ 2 ^ o), o + 1) :: held) := by
  have hpos := Nat.two_pow_pos o
  rcases xor_two_pow_cases a o with ⟨heq, -⟩ | ⟨heq, -⟩
  · rw [show min a (a ^^^ 2 ^ o) = a by omega, cut_iff, ← heq]
    exact h.of_countP fun p => ((List.Perm.swap _ _ _).countP_eq _).le
  · rw [show min a (a ^^^ 2 ^ o) = a ^^^ 2 ^ o by omega, cut_iff, ← heq]
    exact h

end Packed

end QuackOS.Tiling
