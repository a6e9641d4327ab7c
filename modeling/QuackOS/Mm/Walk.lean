import QuackOS.Mm.PageTable

/-!
# Translation, and what the table operations do to it

* `leaf`, `translate` — the hardware's four-level walk, with 1 GiB and 2 MiB blocks;
* `PageTable.Wf` — the tables of a handle form a tree of live frames, apart from its tracker
  pages;
* `Grown` — what `find_pte_create` may do to a table on its way to a leaf: hang in zeroed
  frames from the free list, in the place of invalid and of block descriptors;
* `map_spec`, `remap_spec`, `unmap_spec` — the operations in these terms.
-/

namespace QuackOS.Mm

open Radix (reach stop IsTree)

/-! ## The hardware's walk -/

/-- Is the descriptor a leaf on its level?  There are no blocks on level 0, and on level 3
only the page encoding is valid. -/
def isLeaf (level : ℕ) (w : Word) : Bool :=
  if level = 3 then w &&& 0b11 == 0b11
  else (level = 1 || level = 2) && w &&& 0b11 == 0b01

/-- The leaf descriptor that the walk along a path of four indices ends at, with its level. -/
def leaf (ph : Phys) (root : ℕ) (q : List Index) : Option (ℕ × Word) :=
  (stop Pte.child ph.page 0 root q).filter fun r => isLeaf r.1 r.2

/-- The outcome of a translation: the physical address and the descriptor, which has the
attributes. -/
structure Translation where
  pa : ℕ
  desc : Word
  deriving DecidableEq

/-- The number of address bits below a leaf of the level. -/
def leafShift (level : ℕ) : ℕ := 39 - 9 * level

/-- The hardware's translation of a 48-bit virtual address. -/
def translate (ph : Phys) (root va : ℕ) : Option Translation :=
  if va < 2 ^ 48 then
    (leaf ph root (indexes (va / 4096))).map fun r =>
      ⟨Pte.ppn r.2 * 4096 / 2 ^ leafShift r.1 * 2 ^ leafShift r.1 + va % 2 ^ leafShift r.1, r.2⟩
  else none

/-- The region of the block descriptor that the walk along `path` ends at, if it does. -/
def blockMet (ph : Phys) (root : ℕ) (path : List Index) : Option (List Index) :=
  match leaf ph root path with
  | some (level, _) => if level < 3 then some (path.take (level + 1)) else none
  | none => none

@[simp] theorem length_indexes (vpn : ℕ) : (indexes vpn).length = 4 := rfl

/-- Two pages of the 48-bit address space have different paths. -/
theorem indexes_inj {a b : ℕ} (h : indexes a = indexes b) : a % 2 ^ 36 = b % 2 ^ 36 := by
  simp only [indexes, List.cons.injEq, and_true, Fin.ext_iff, Fin.val_ofNat,
    Nat.shiftRight_eq_div_pow] at h
  omega

theorem isLeaf_zero (level : ℕ) : isLeaf level 0#64 = false := by
  unfold isLeaf
  split <;> simp

/-- A leaf that is not on the last level is not a table. -/
theorem child_of_isLeaf {level : ℕ} {w : Word} (h : isLeaf level w = true) (hl : level ≠ 3) :
    Pte.child w = none := by
  have hb : w &&& 0b11 = 0b01 := by
    simp only [isLeaf, hl, if_false, Bool.and_eq_true, beq_iff_eq] at h
    exact h.2
  have : Pte.isTable w = false := by
    rw [Pte.isTable, hb]
    rfl
  simp [Pte.child, this]

/-! ## Well-formed tables -/

/-- The tables below the root are live frames and form a tree, and the tracker page at the
head of the chain is a live frame outside it. -/
structure PageTable.Wf (pt : PageTable) (ph : Phys) : Prop where
  ok : ph.Ok
  tree : IsTree Pte.child ph.page pt.rootPpn 3
  node_live : ∀ p n, p.length ≤ 3 → reach Pte.child ph.page pt.rootPpn p = some n → ph.Live n
  tracker_live : ∀ t, pt.trackerHead = some t → ph.Live t
  tracker_node : ∀ t, pt.trackerHead = some t →
    ∀ p, p.length ≤ 3 → reach Pte.child ph.page pt.rootPpn p ≠ some t

/-- A free frame is not a table of a well-formed tree. -/
theorem PageTable.Wf.fresh {pt : PageTable} {ph : Phys} (h : pt.Wf ph) {f : ℕ} (hf : f ∈ ph.free)
    (q : List Index) (hq : q.length ≤ 3) : reach Pte.child ph.page pt.rootPpn q ≠ some f :=
  fun hr => (h.node_live q f hq hr).2 hf

/-- One allocator state follows another by allocations only. -/
structure Phys.Extends (ph ph' : Phys) : Prop where
  ok : ph.Ok → ph'.Ok
  base : ph'.trackBase = ph.trackBase
  free : ph'.free <:+ ph.free
  taken : ph.taken <:+ ph'.taken
  moved : ∀ f ∈ ph.free, f ∈ ph'.free ∨ f ∈ ph'.taken
  given : ph'.given = ph.given

namespace Phys.Extends

variable {ph ph' ph'' : Phys} {f : ℕ} {rest : List ℕ}

theorem refl (ph : Phys) : ph.Extends ph :=
  ⟨id, rfl, List.suffix_refl _, List.suffix_refl _, fun _ hf => Or.inl hf, rfl⟩

theorem trans (h : ph.Extends ph') (h' : ph'.Extends ph'') : ph.Extends ph'' := by
  refine ⟨h'.ok ∘ h.ok, h'.base.trans h.base, h'.free.trans h.free, h.taken.trans h'.taken,
    fun f hf => ?_, h'.given.trans h.given⟩
  rcases h.moved f hf with hf | hf
  · exact h'.moved f hf
  · exact Or.inr (h'.taken.subset hf)

theorem set {n : ℕ} {i : Index} {w : Word} (h : ph.Extends ph') : ph.Extends (ph'.set n i w) :=
  ⟨fun hok => (h.ok hok).set, h.base, h.free, h.taken, h.moved, h.given⟩

theorem pop (hfree : ph.free = f :: rest) : ph.Extends (ph.pop f rest) := by
  refine ⟨fun h => h.pop hfree, rfl, by rw [hfree]; exact List.suffix_cons f rest,
    List.suffix_cons f ph.taken, fun g hg => ?_, rfl⟩
  rw [hfree] at hg
  rcases List.mem_cons.mp hg with rfl | hg
  · exact Or.inr (List.mem_cons_self ..)
  · exact Or.inl hg

theorem live (h : ph.Extends ph') {g : ℕ} (hg : ph.Live g) : ph'.Live g :=
  ⟨by rw [Phys.tracked_congr h.base]; exact hg.1, fun hm => hg.2 (h.free.subset hm)⟩

end Phys.Extends

/-! ## Tracking a frame -/

section Track

variable {pt pt' : PageTable} {ph ph' : Phys} {f tp : ℕ}

/-- What a step of `track_frame` may change: the head of the tracker chain, and frames that
were free. -/
structure Tracked (pt : PageTable) (ph : Phys) (pt' : PageTable) (ph' : Phys) : Prop where
  ext : ph.Extends ph'
  root : pt'.rootPpn = pt.rootPpn
  owns : pt'.ownsRoot = pt.ownsRoot
  tracker : ∀ t, pt'.trackerHead = some t →
    pt.trackerHead = some t ∨ (t ∈ ph.free ∧ ph'.Live t)
  page : ∀ g, ph.Live g → pt.trackerHead ≠ some g → ph'.page g = ph.page g

theorem Tracked.refl (pt : PageTable) (ph : Phys) : Tracked pt ph pt ph :=
  ⟨.refl ph, rfl, rfl, fun _ h => Or.inl h, fun _ _ _ => rfl⟩

theorem firstTracker_spec (hok : ph.Ok) (h : pt.firstTracker ph = some (tp, pt', ph')) :
    Tracked pt ph pt' ph' ∧ pt'.trackerHead = some tp := by
  unfold PageTable.firstTracker at h
  split at h
  case h_1 t ht =>
    cases h
    exact ⟨.refl pt ph, ht⟩
  case h_2 hnone =>
    rcases allocPage_cases hok with ⟨-, ha⟩ | ⟨f, rest, hfree, ha⟩
    · simp [ha] at h
    · simp only [ha, Option.some.injEq, Prod.mk.injEq] at h
      obtain ⟨rfl, rfl, rfl⟩ := h
      have hext : ph.Extends (((ph.pop f rest).set f countIx 0).set f nextTagIx 0) :=
        (Phys.Extends.pop hfree).set.set
      refine ⟨⟨hext, rfl, rfl, fun t ht => ?_, fun g hg _ => ?_⟩, rfl⟩
      · cases ht
        have hl : (ph.pop f rest).Live f := Phys.Live.pop_self hok hfree
        exact Or.inr ⟨by simp [hfree], hl⟩
      · have hgf : g ≠ f := hg.ne_head hfree
        rw [Phys.set_page_of_ne hgf, Phys.set_page_of_ne hgf, Phys.pop_page_of_ne hgf]

/-- `track_frame` writes to the head of the chain and to frames it takes from the free list,
and to nothing else. -/
theorem trackFrame_spec (hok : ph.Ok) (hlive : ∀ t, pt.trackerHead = some t → ph.Live t)
    (h : pt.trackFrame ph f = some (pt', ph')) : Tracked pt ph pt' ph' := by
  unfold PageTable.trackFrame at h
  split at h
  case isFalse =>
    cases h
    exact .refl pt ph
  split at h
  case h_2 => cases h
  case h_1 tp pt₁ ph₁ hfirst =>
    obtain ⟨h₁, htp⟩ := firstTracker_spec hok hfirst
    have hok₁ : ph₁.Ok := h₁.ext.ok hok
    -- a live frame other than the old head is not the page that is written
    have hne : ∀ g, ph.Live g → pt.trackerHead ≠ some g → g ≠ tp := by
      rintro g hg hgt rfl
      rcases h₁.tracker g htp with h | ⟨hfree, -⟩
      · exact hgt h
      · exact hg.2 hfree
    have htlive : ph₁.Live tp := by
      rcases h₁.tracker tp htp with h | ⟨-, h⟩
      · exact h₁.ext.live (hlive tp h)
      · exact h
    dsimp only at h
    split at h
    · cases h
      refine ⟨h₁.ext.set.set, h₁.root, h₁.owns, h₁.tracker, fun g hg hgt => ?_⟩
      have := hne g hg hgt
      rw [Phys.set_page_of_ne this, Phys.set_page_of_ne this, h₁.page g hg hgt]
    · rcases allocPage_cases hok₁ with ⟨-, ha⟩ | ⟨new, rest, hfree, ha⟩
      · simp [ha] at h
      · simp only [ha, Option.some.injEq, Prod.mk.injEq] at h
        obtain ⟨rfl, rfl⟩ := h
        have hext : ph.Extends (ph₁.pop new rest) := h₁.ext.trans (.pop hfree)
        refine ⟨hext.set.set.set.set, h₁.root, h₁.owns, fun t ht => ?_, fun g hg hgt => ?_⟩
        · cases ht
          have hl : (ph₁.pop new rest).Live new := Phys.Live.pop_self hok₁ hfree
          exact Or.inr ⟨h₁.ext.free.subset (by simp [hfree]), hl⟩
        · have hgn : g ≠ new := (h₁.ext.live hg).ne_head hfree
          rw [Phys.set_page_of_ne hgn, Phys.set_page_of_ne hgn, Phys.set_page_of_ne hgn,
            Phys.set_page_of_ne hgn, Phys.pop_page_of_ne hgn, h₁.page g hg hgt]

/-- A borrowed view tracks nothing. -/
theorem trackFrame_of_view (hv : pt.ownsRoot = false) : pt.trackFrame ph f = some (pt, ph) := by
  simp [PageTable.trackFrame, hv]

end Track

/-! ## Growing the tree -/

/-- What the walk to the leaf at `path` may do to a table.  It takes frames from the free list
and makes them tables, so that the leaves stay what they were, except below a block that the
walk met: there nothing is mapped any more. -/
structure Grown (pt : PageTable) (ph : Phys) (path : List Index) (pt' : PageTable) (ph' : Phys) :
    Prop where
  wf : pt'.Wf ph'
  ext : ph.Extends ph'
  root : pt'.rootPpn = pt.rootPpn
  view : pt.ownsRoot = false → pt' = pt
  tracker : ∀ t, pt'.trackerHead = some t → pt.trackerHead = some t ∨ t ∈ ph.free
  leaf : ∀ q, q.length = 4 → leaf ph' pt.rootPpn q =
    if ∃ b, blockMet ph pt.rootPpn path = some b ∧ b <+: q then none else leaf ph pt.rootPpn q
  node : ∀ q n, q.length ≤ 3 → reach Pte.child ph'.page pt.rootPpn q = some n →
    reach Pte.child ph.page pt.rootPpn q = some n ∨ n ∈ ph.free
  node_mono : ∀ q n, q.length ≤ 3 → reach Pte.child ph.page pt.rootPpn q = some n →
    reach Pte.child ph'.page pt.rootPpn q = some n
  last : ∀ q n, q.length = 3 → reach Pte.child ph'.page pt.rootPpn q = some n →
    (reach Pte.child ph.page pt.rootPpn q = some n ∧ ph'.page n = ph.page n) ∨
      ph'.page n = fun _ => 0#64
  page : ∀ g, ph.Live g → pt.trackerHead ≠ some g →
    (∀ q, q.length ≤ 3 → reach Pte.child ph.page pt.rootPpn q ≠ some g) → ph'.page g = ph.page g

section Grow

variable {pt pt' : PageTable} {ph ph' : Phys} {p path : List Index} {n m : ℕ} {i : Index}

theorem blockMet_eq_some {b : List Index} (h : blockMet ph pt.rootPpn path = some b) :
    ∃ l w, leaf ph pt.rootPpn path = some (l, w) ∧ l < 3 ∧ b = path.take (l + 1) := by
  unfold blockMet at h
  split at h
  · split at h
    · cases h
      exact ⟨_, _, by assumption, by assumption, rfl⟩
    · cases h
  · cases h

theorem blockMet_of_leaf_none (h : leaf ph pt.rootPpn path = none) :
    blockMet ph pt.rootPpn path = none := by
  simp [blockMet, h]

theorem Grown.refl (h : pt.Wf ph) (hb : blockMet ph pt.rootPpn path = none) :
    Grown pt ph path pt ph :=
  ⟨h, .refl ph, rfl, fun _ => rfl, fun _ h => Or.inl h, fun q _ => by simp [hb],
    fun _ _ _ h => Or.inl h, fun _ _ _ h => h, fun _ _ _ h => Or.inl ⟨h, rfl⟩,
    fun _ _ _ _ => rfl⟩

/-- The walk stops at the word at the end of `p` when that word is not a table. -/
theorem stop_of_not_table {root : ℕ} (hp : reach Pte.child ph.page root p = some n) {j : Index}
    {r : List Index} (hc : Pte.child (ph.page n i) = none) :
    stop Pte.child ph.page 0 root (p ++ i :: j :: r) = some (p.length, ph.page n i) := by
  rw [Radix.stop_of_reach hp (by simp), stop, hc, Nat.zero_add]

/-- The leaf in word `i` of a table of the last level. -/
theorem leaf_last {root : ℕ} (hp : reach Pte.child ph.page root p = some n) (hl : p.length = 3) :
    leaf ph root (p ++ [i]) =
      if isLeaf 3 (ph.page n i) then some (3, ph.page n i) else none := by
  have hstop : stop Pte.child ph.page 0 root (p ++ [i]) = some (3, ph.page n i) := by
    rw [Radix.stop_of_reach hp (by simp), stop, hl]
  rw [leaf, hstop, Option.filter_some]

/-- Tracking leaves the tables and their leaves alone. -/
theorem Tracked.reach_eq (h : pt.Wf ph) (ht : Tracked pt ph pt' ph') {q : List Index}
    (hq : q.length ≤ 4) :
    reach Pte.child ph'.page pt.rootPpn q = reach Pte.child ph.page pt.rootPpn q :=
  Radix.reach_congr_nodes (fun q m hq hm => ht.page m (h.node_live q m hq hm)
    fun hcon => h.tracker_node m hcon q hq hm) hq

theorem Tracked.leaf_eq (h : pt.Wf ph) (ht : Tracked pt ph pt' ph') {q : List Index}
    (hq : q.length = 4) : leaf ph' pt.rootPpn q = leaf ph pt.rootPpn q := by
  unfold leaf
  rw [Radix.stop_congr_nodes (d := 3) (fun q m hq hm => ht.page m (h.node_live q m hq hm)
    fun hcon => h.tracker_node m hcon q hq hm) (by omega)]

theorem Tracked.wf (h : pt.Wf ph) (ht : Tracked pt ph pt' ph') : pt'.Wf ph' := by
  have hreach : ∀ q m, q.length ≤ 3 → reach Pte.child ph'.page pt'.rootPpn q = some m →
      reach Pte.child ph.page pt.rootPpn q = some m := by
    intro q m hq hm
    rwa [ht.root, ht.reach_eq h (by omega)] at hm
  refine ⟨ht.ext.ok h.ok, fun q q' m hq hq' hm hm' => ?_, fun q m hq hm => ?_, fun t htt => ?_,
    fun t htt q hq hm => ?_⟩
  · exact h.tree q q' m hq hq' (hreach q m hq hm) (hreach q' m hq' hm')
  · exact ht.ext.live (h.node_live q m hq (hreach q m hq hm))
  · rcases ht.tracker t htt with htt | ⟨-, hl⟩
    · exact ht.ext.live (h.tracker_live t htt)
    · exact hl
  · rcases ht.tracker t htt with htt | ⟨hfree, -⟩
    · exact h.tracker_node t htt q hq (hreach q t hq hm)
    · exact h.fresh hfree q hq (hreach q t hq hm)

/-- What growing did, tracking the frame does not undo. -/
theorem Grown.track {pt₁ : PageTable} {ph₁ : Phys} (h : pt.Wf ph) (g : Grown pt ph path pt₁ ph₁)
    (ht : Tracked pt₁ ph₁ pt' ph') (hview : pt₁.ownsRoot = false → pt' = pt₁) :
    Grown pt ph path pt' ph' := by
  refine ⟨ht.wf g.wf, g.ext.trans ht.ext, ht.root.trans g.root, fun hv => ?_, fun t htt => ?_,
    fun q hq => ?_, fun q m hq hm => ?_, fun q m hq hm => ?_, fun q m hq hm => ?_,
    fun x hx hxt hxn => ?_⟩
  · have := g.view hv
    subst this
    exact hview hv
  · rcases ht.tracker t htt with htt | ⟨hfree, -⟩
    · exact g.tracker t htt
    · exact Or.inr (g.ext.free.subset hfree)
  · rw [← g.leaf q hq, ← g.root]
    exact ht.leaf_eq g.wf hq
  · rw [← g.root, ht.reach_eq g.wf (by omega), g.root] at hm
    exact g.node q m hq hm
  · rw [← g.root, ht.reach_eq g.wf (by omega), g.root]
    exact g.node_mono q m hq hm
  · rw [← g.root, ht.reach_eq g.wf (by omega)] at hm
    have hsame : ph'.page m = ph₁.page m := ht.page m (g.wf.node_live q m (by omega) hm)
      fun hcon => g.wf.tracker_node m hcon q (by omega) hm
    rw [g.root] at hm
    rw [hsame]
    exact g.last q m hq hm
  · rw [ht.page x (g.ext.live hx), g.page x hx hxt hxn]
    intro htt
    rcases g.tracker x htt with h | h
    · exact hxt h
    · exact hx.2 h

/-- Growing twice, when the first time already took away what the path met. -/
theorem Grown.trans {pt₁ : PageTable} {ph₁ : Phys} (g : Grown pt ph path pt₁ ph₁)
    (g' : Grown pt₁ ph₁ path pt' ph') (hnone : Mm.leaf ph₁ pt.rootPpn path = none) :
    Grown pt ph path pt' ph' := by
  refine ⟨g'.wf, g.ext.trans g'.ext, g'.root.trans g.root, fun hv => ?_, fun t htt => ?_,
    fun q hq => ?_, fun q m hq hm => ?_, fun q m hq hm => ?_, fun q m hq hm => ?_,
    fun x hx hxt hxn => ?_⟩
  · have := g.view hv
    subst this
    exact g'.view hv
  · rcases g'.tracker t htt with htt | hfree
    · exact g.tracker t htt
    · exact Or.inr (g.ext.free.subset hfree)
  · have hb : blockMet ph₁ pt.rootPpn path = none := blockMet_of_leaf_none hnone
    have := g'.leaf q hq
    rw [g.root, hb] at this
    rw [this, ← g.leaf q hq]
    simp
  · rw [← g.root] at hm
    rcases g'.node q m hq hm with hm | hfree
    · rw [g.root] at hm
      exact g.node q m hq hm
    · exact Or.inr (g.ext.free.subset hfree)
  · have := g'.node_mono q m hq
    rw [g.root] at this
    exact this (g.node_mono q m hq hm)
  · have := g'.last q m hq
    rw [g.root] at this
    rcases this hm with ⟨hm₁, hsame⟩ | hzero
    · rw [hsame]
      exact g.last q m hq hm₁
    · exact Or.inr hzero
  · rw [g'.page x (g.ext.live hx), g.page x hx hxt hxn]
    · intro htt
      rcases g.tracker x htt with h | h
      · exact hxt h
      · exact hx.2 h
    · intro q hq hm
      rw [g.root] at hm
      rcases g.node q x hq hm with hm | hfree
      · exact hxn q hq hm
      · exact hx.2 hfree

/-- The state in which the free frame `f` is hung in as a table at word `i` of table `n`. -/
def hung (ph : Phys) (f : ℕ) (rest : List ℕ) (n : ℕ) (i : Index) : Phys :=
  (ph.pop f rest).set n i (Pte.newTable f)

section Hung

variable {f : ℕ} {rest : List ℕ} (h : pt.Wf ph) (hfree : ph.free = f :: rest)
  (hp : reach Pte.child ph.page pt.rootPpn p = some n) (hlen : p.length ≤ 2)
include h hfree

theorem pop_agrees (q : List Index) (m : ℕ) (hq : q.length ≤ 3)
    (hm : reach Pte.child ph.page pt.rootPpn q = some m) :
    (ph.pop f rest).page m = ph.page m :=
  Phys.pop_page_of_ne ((h.node_live q m hq hm).ne_head hfree)

theorem child_newTable_head : Pte.child (Pte.newTable f) = some f :=
  Pte.child_newTable (h.ok.lt_of_tracked (h.ok.tracked f (by simp [hfree])))

include hp hlen

theorem reach_hung {q : List Index} (hq : q.length ≤ 4) :
    reach Pte.child (hung ph f rest n i).page pt.rootPpn q =
      if p ++ [i] <+: q then (if q = p ++ [i] then some f else none)
      else reach Pte.child ph.page pt.rootPpn q := by
  have hnf : f ≠ n := ((h.node_live p n (by omega) hp).ne_head hfree).symm
  have hp₀ : reach Pte.child (ph.pop f rest).page pt.rootPpn p = some n := by
    rw [Radix.reach_congr_nodes (pop_agrees h hfree) (by omega), hp]
  rw [← Radix.reach_congr_nodes (pop_agrees h hfree) hq]
  exact Radix.reach_install (h.tree.congr (pop_agrees h hfree)) hp₀ (by omega) (by simp) hnf
    (child_newTable_head h hfree) hq

theorem isTree_hung : IsTree Pte.child (hung ph f rest n i).page pt.rootPpn 3 := by
  have hp₀ : reach Pte.child (ph.pop f rest).page pt.rootPpn p = some n := by
    rw [Radix.reach_congr_nodes (pop_agrees h hfree) (by omega), hp]
  refine (h.tree.congr (pop_agrees h hfree)).install hp₀ (by omega) (by simp) (fun q hq => ?_)
    (child_newTable_head h hfree)
  rw [Radix.reach_congr_nodes (pop_agrees h hfree) (by omega)]
  exact h.fresh (by simp [hfree]) q hq

theorem node_hung {q : List Index} (hq : q.length ≤ 3)
    (hm : reach Pte.child (hung ph f rest n i).page pt.rootPpn q = some m) :
    reach Pte.child ph.page pt.rootPpn q = some m ∨ m = f := by
  rw [reach_hung h hfree hp hlen (by omega)] at hm
  split at hm
  · split at hm
    · exact Or.inr (Option.some.inj hm).symm
    · cases hm
  · exact Or.inl hm

theorem wf_hung : pt.Wf (hung ph f rest n i) := by
  have hext : ph.Extends (hung ph f rest n i) := (Phys.Extends.pop hfree).set
  refine ⟨hext.ok h.ok, isTree_hung h hfree hp hlen, fun q m hq hm => ?_,
    fun t ht => hext.live (h.tracker_live t ht), fun t ht q hq hm => ?_⟩
  · rcases node_hung h hfree hp hlen hq hm with hm | rfl
    · exact hext.live (h.node_live q m hq hm)
    · have hl : (ph.pop m rest).Live m := Phys.Live.pop_self h.ok hfree
      exact hl
  · rcases node_hung h hfree hp hlen hq hm with hm | rfl
    · exact h.tracker_node t ht q hq hm
    · exact (h.tracker_live t ht).2 (by simp [hfree])

/-- Below the new table nothing is mapped, and every other leaf is what it was. -/
theorem leaf_hung {q : List Index} (hq : q.length = 4) :
    leaf (hung ph f rest n i) pt.rootPpn q =
      if p ++ [i] <+: q then none else leaf ph pt.rootPpn q := by
  have hnf : f ≠ n := ((h.node_live p n (by omega) hp).ne_head hfree).symm
  have htree := h.tree.congr (pop_agrees h hfree)
  have hp₀ : reach Pte.child (ph.pop f rest).page pt.rootPpn p = some n := by
    rw [Radix.reach_congr_nodes (pop_agrees h hfree) (by omega), hp]
  unfold leaf
  split
  case isTrue hpq =>
    obtain ⟨s, rfl⟩ := hpq
    simp only [List.length_append, List.length_cons, List.length_nil] at hq
    obtain ⟨j, r, rfl⟩ := List.exists_cons_of_length_pos (l := s) (by omega)
    have hstop : stop Pte.child (hung ph f rest n i).page 0 pt.rootPpn (p ++ i :: j :: r) =
        some (0 + p.length + 1, (ph.pop f rest).page f j) :=
      Radix.stop_install htree hp₀ (by omega) (by simp) hnf (child_newTable_head h hfree)
    rw [show p ++ [i] ++ j :: r = p ++ i :: j :: r by simp, hstop]
    simp [isLeaf_zero]
  case isFalse hpq =>
    have hstop : stop Pte.child (hung ph f rest n i).page 0 pt.rootPpn q =
        stop Pte.child (ph.pop f rest).page 0 pt.rootPpn q :=
      Radix.stop_write_of_apart htree hp₀ (by omega) (by omega) hpq
    rw [hstop, Radix.stop_congr_nodes (pop_agrees h hfree) (by omega)]

/-- Hanging in a zeroed frame in the place of a word that is not a table. -/
theorem grown_hung {j : Index} {r : List Index} (hr : p.length + r.length = 2)
    (hc : Pte.child (ph.page n i) = none) :
    Grown pt ph (p ++ i :: j :: r) pt (hung ph f rest n i) := by
  have hext : ph.Extends (hung ph f rest n i) := (Phys.Extends.pop hfree).set
  -- the paths through the replaced word all stopped at it
  have hstop : ∀ j r, leaf ph pt.rootPpn (p ++ i :: j :: r) =
      (some (p.length, ph.page n i)).filter fun x => isLeaf x.1 x.2 := by
    intro j r
    rw [leaf, stop_of_not_table hp hc]
  refine ⟨wf_hung h hfree hp hlen, hext, rfl, fun _ => rfl, fun _ ht => Or.inl ht,
    fun q hq => ?_, fun q m hq hm => ?_, fun q m hq hm => ?_, fun q m hq hm => ?_,
    fun g hg _ hgn => ?_⟩
  · rw [leaf_hung h hfree hp hlen hq]
    have htake : (p ++ i :: j :: r).take (p.length + 1) = p ++ [i] := by
      rw [List.take_length_add_append]
      rfl
    by_cases hpq : p ++ [i] <+: q
    · rw [if_pos hpq]
      cases hl : isLeaf p.length (ph.page n i) with
      | true =>
        have hb : blockMet ph pt.rootPpn (p ++ i :: j :: r) = some (p ++ [i]) := by
          have hl3 : p.length < 3 := by omega
          have hle : leaf ph pt.rootPpn (p ++ i :: j :: r) = some (p.length, ph.page n i) := by
            rw [hstop, Option.filter_some, hl, if_pos rfl]
          rw [blockMet, hle]
          dsimp only
          rw [if_pos hl3, htake]
        rw [if_pos ⟨p ++ [i], hb, hpq⟩]
      | false =>
        obtain ⟨s, rfl⟩ := hpq
        simp only [List.length_append, List.length_cons, List.length_nil] at hq
        obtain ⟨j', r', rfl⟩ := List.exists_cons_of_length_pos (l := s) (by omega)
        have hnone : leaf ph pt.rootPpn (p ++ [i] ++ j' :: r') = none := by
          rw [show p ++ [i] ++ j' :: r' = p ++ i :: j' :: r' by simp, hstop]
          simp [hl]
        rw [hnone]
        simp
    · rw [if_neg hpq, if_neg]
      rintro ⟨b, hb, hbq⟩
      obtain ⟨l, w, hlw, -, rfl⟩ := blockMet_eq_some hb
      rw [hstop] at hlw
      obtain ⟨hlw, -⟩ := Option.filter_eq_some_iff.mp hlw
      cases hlw
      rw [htake] at hbq
      exact hpq hbq
  · rcases node_hung h hfree hp hlen hq hm with hm | rfl
    · exact Or.inl hm
    · exact Or.inr (by simp [hfree])
  · rw [reach_hung h hfree hp hlen (by omega), if_neg, hm]
    -- nothing was reached through the word that is replaced
    rintro ⟨s, rfl⟩
    rw [Radix.reach_append, Radix.reach_concat, hp, Option.bind_some, hc] at hm
    cases hm
  · have hnf : n ≠ f := (h.node_live p n (by omega) hp).ne_head hfree
    rcases node_hung h hfree hp hlen (by omega) hm with hm₀ | rfl
    · have hmn : m ≠ n := by
        rintro rfl
        have := h.tree q p m (by omega) (by omega) hm₀ hp
        rw [this] at hq
        omega
      refine Or.inl ⟨hm₀, ?_⟩
      rw [hung, Phys.set_page_of_ne hmn, pop_agrees h hfree q m (by omega) hm₀]
    · exact Or.inr (by rw [hung, Phys.set_page_of_ne hnf.symm, Phys.pop_page_self])
  · have hgn' : g ≠ n := by
      rintro rfl
      exact hgn p (by omega) hp
    rw [hung, Phys.set_page_of_ne hgn', Phys.pop_page_of_ne (hg.ne_head hfree)]

end Hung

/-! ## The walk to a leaf -/

/-- One level of `find_pte_create`: the table that is there, or a free frame hung in. -/
theorem nextTable_spec (h : pt.Wf ph) (hp : reach Pte.child ph.page pt.rootPpn p = some n)
    (hlen : p.length ≤ 2) (hn : pt.nextTable ph n i = some (some m, pt', ph')) :
    (Pte.child (ph.page n i) = some m ∧ pt' = pt ∧ ph' = ph) ∨
    (Pte.child (ph.page n i) = none ∧ ∃ rest, ph.free = m :: rest ∧
      Tracked pt (hung ph m rest n i) pt' ph' ∧ (pt.ownsRoot = false → pt' = pt)) := by
  unfold PageTable.nextTable at hn
  dsimp only at hn
  split at hn
  case isTrue hc =>
    have hc := Pte.not_table_iff.mp hc
    rcases allocPage_cases h.ok with ⟨-, ha⟩ | ⟨f, rest, hfree, ha⟩
    · simp [ha] at hn
    simp only [ha, Option.map_eq_some_iff, Prod.mk.injEq, Option.some.injEq] at hn
    obtain ⟨⟨pt₁, ph₁⟩, ht, hm, rfl, rfl⟩ := hn
    have hf36 : f < 2 ^ 36 := h.ok.lt_of_tracked (h.ok.tracked f (by simp [hfree]))
    rw [Pte.ppn_newTable hf36] at hm
    subst hm
    have hw : pt.Wf (hung ph f rest n i) := wf_hung h hfree hp hlen
    refine Or.inr ⟨hc, rest, hfree, trackFrame_spec hw.ok hw.tracker_live ht, fun hv => ?_⟩
    rw [trackFrame_of_view hv] at ht
    cases ht
    rfl
  case isFalse hc =>
    cases hn
    refine Or.inl ⟨?_, rfl, rfl⟩
    have hc : Pte.child (ph.page n i) ≠ none := fun h => hc (Pte.not_table_iff.mpr h)
    unfold Pte.child at hc ⊢
    split at hc
    · rw [if_pos (by assumption)]
    · exact absurd rfl hc

/-- **What `find_pte_create` does to a table**: the leaf's place is found, and the table has
grown along the path. -/
theorem descend_spec {r : List Index} {n' : ℕ} {i' : Index} (h : pt.Wf ph)
    (hp : reach Pte.child ph.page pt.rootPpn p = some n) (hpath : path = p ++ r)
    (hlen : path.length = 4) (hd : PageTable.descend r n pt ph = some (some (n', i'), pt', ph')) :
    Grown pt ph path pt' ph' ∧
      ∃ p', path = p' ++ [i'] ∧ reach Pte.child ph'.page pt.rootPpn p' = some n' := by
  induction r generalizing p n pt ph with
  | nil => simp [PageTable.descend] at hd
  | cons i r ih =>
    cases r with
    | nil =>
      simp only [PageTable.descend, Option.some.injEq, Prod.mk.injEq] at hd
      obtain ⟨⟨rfl, rfl⟩, rfl, rfl⟩ := hd
      refine ⟨.refl h ?_, p, hpath, hp⟩
      -- on the last level the walk meets a page or nothing
      subst hpath
      simp only [List.length_append, List.length_cons, List.length_nil] at hlen
      rw [blockMet, leaf_last hp (by omega)]
      cases hl : isLeaf 3 (ph.page n i) <;> simp
    | cons j r =>
      have hlen' : p.length + r.length = 2 := by
        simp only [hpath, List.length_append, List.length_cons] at hlen
        omega
      simp only [PageTable.descend] at hd
      split at hd
      case h_2 => cases hd
      case h_3 => cases hd
      case h_1 m pt₁ ph₁ hn =>
        have hpath' : path = (p ++ [i]) ++ j :: r := by simp [hpath]
        rcases nextTable_spec h hp (by omega) hn with ⟨hc, rfl, rfl⟩ | ⟨hc, rest, hfree, ht, hv⟩
        · have hp' : reach Pte.child ph₁.page pt₁.rootPpn (p ++ [i]) = some m := by
            rw [Radix.reach_concat, hp, Option.bind_some, hc]
          exact ih h hp' hpath' hd
        · have hwf : pt.Wf (hung ph m rest n i) := wf_hung h hfree hp (by omega)
          have hg : Grown pt ph path pt₁ ph₁ := by
            rw [hpath]
            exact (grown_hung h hfree hp (by omega) hlen' hc).track h ht hv
          have hp' : reach Pte.child ph₁.page pt₁.rootPpn (p ++ [i]) = some m := by
            have hl : (p ++ [i]).length ≤ 4 := by
              simp only [List.length_append, List.length_cons, List.length_nil]
              omega
            rw [hg.root, ht.reach_eq hwf hl, reach_hung h hfree hp (by omega) hl, if_pos (by simp),
              if_pos rfl]
          have hnone : leaf ph₁ pt.rootPpn path = none := by
            rw [ht.leaf_eq hwf hlen, leaf_hung h hfree hp (by omega) hlen, if_pos]
            rw [hpath']
            exact List.prefix_append _ _
          obtain ⟨hg', p', hp'', hr'⟩ := ih hg.wf hp' hpath' hd
          refine ⟨hg.trans hg' hnone, p', hp'', ?_⟩
          rwa [hg.root] at hr'

theorem findPteCreate_spec {vpn n' : ℕ} {i' : Index} (h : pt.Wf ph)
    (hd : pt.findPteCreate ph vpn = some (some (n', i'), pt', ph')) :
    Grown pt ph (indexes vpn) pt' ph' ∧
      ∃ p', indexes vpn = p' ++ [i'] ∧ reach Pte.child ph'.page pt.rootPpn p' = some n' :=
  descend_spec h (p := []) rfl rfl rfl hd

theorem find_spec {r : List Index} {n' : ℕ} {i' : Index}
    (hf : PageTable.find ph r n = some (n', i')) :
    ∃ p', r = p' ++ [i'] ∧ reach Pte.child ph.page n p' = some n' := by
  induction r generalizing n with
  | nil => cases hf
  | cons i r ih =>
    cases r with
    | nil =>
      cases hf
      exact ⟨[], rfl, rfl⟩
    | cons j r =>
      simp only [PageTable.find] at hf
      split at hf
      case isTrue => cases hf
      case isFalse hc =>
        obtain ⟨p', hp', hr'⟩ := ih hf
        have ht : Pte.isTable (ph.page n i) = true := by
          cases ht : Pte.isTable (ph.page n i) with
          | true => rfl
          | false => simp [ht] at hc
        refine ⟨i :: p', by simp [hp'], ?_⟩
        rw [reach, Pte.child, if_pos ht]
        exact hr'

/-- A walk that meets tables all the way finds the word behind them. -/
theorem find_of_reach {n' : ℕ} {i' : Index} (hr : reach Pte.child ph.page n p = some n') :
    PageTable.find ph (p ++ [i']) n = some (n', i') := by
  induction p generalizing n with
  | nil =>
    cases hr
    rfl
  | cons j p ih =>
    rw [reach] at hr
    obtain ⟨m, hc, hr⟩ := Option.bind_eq_some_iff.mp hr
    have hm : Pte.ppn (ph.page n j) = m := Pte.ppn_of_child hc
    obtain ⟨k, r, hk⟩ : ∃ k r, p ++ [i'] = k :: r := List.exists_cons_of_length_pos (by simp)
    have hih := ih hr
    rw [List.cons_append]
    rw [hk] at hih ⊢
    rw [PageTable.find, if_neg (Pte.table_of_child hc), hm]
    exact hih

/-! ## Writing a leaf -/

/-- The operations write a word of a table of the last level. -/
theorem wf_set_leaf {w : Word} (h : pt.Wf ph) (hp : reach Pte.child ph.page pt.rootPpn p = some n)
    (hl : p.length = 3) : pt.Wf (ph.set n i w) := by
  have hreach : ∀ q, q.length ≤ 3 → reach Pte.child (ph.set n i w).page pt.rootPpn q =
      reach Pte.child ph.page pt.rootPpn q := fun q hq =>
    Radix.reach_write_leaf h.tree hp hl hq
  have hext : ph.Extends (ph.set n i w) := (Phys.Extends.refl ph).set
  refine ⟨hext.ok h.ok, h.tree.write_leaf hp hl, fun q m hq hm => ?_, h.tracker_live,
    fun t ht q hq => ?_⟩
  · rw [hreach q hq] at hm
    exact h.node_live q m hq hm
  · rw [hreach q hq]
    exact h.tracker_node t ht q hq

theorem leaf_set {w : Word} (h : pt.Wf ph) (hp : reach Pte.child ph.page pt.rootPpn p = some n)
    (hl : p.length = 3) {q : List Index} (hq : q.length = 4) :
    leaf (ph.set n i w) pt.rootPpn q =
      if q = p ++ [i] then (if isLeaf 3 w then some (3, w) else none)
      else leaf ph pt.rootPpn q := by
  split
  case isTrue heq =>
    subst heq
    have hp' : reach Pte.child (ph.set n i w).page pt.rootPpn p = some n :=
      Radix.reach_write_self h.tree hp (by omega)
    have hw : (ph.set n i w).page n i = w := Radix.write_self
    rw [leaf_last hp' hl, hw]
  case isFalse hne =>
    unfold leaf
    have hstop : stop Pte.child (ph.set n i w).page 0 pt.rootPpn q =
        stop Pte.child ph.page 0 pt.rootPpn q := by
      apply Radix.stop_write_of_apart h.tree hp (by omega) (by omega)
      intro hpre
      apply hne
      exact (hpre.eq_of_length (by simp [hl, hq])).symm
    rw [hstop]

/-! ## The operations -/

variable {vpn ppn : ℕ} {fl : PTEFlags}

theorem length_of_indexes (h : indexes vpn = p ++ [i]) : p.length = 3 := by
  have := congrArg List.length h
  simp only [length_indexes, List.length_append, List.length_cons, List.length_nil] at this
  omega

theorem findPte_spec (hf : pt.findPte ph vpn = some (n, i)) :
    ∃ p, indexes vpn = p ++ [i] ∧ p.length = 3 ∧
      reach Pte.child ph.page pt.rootPpn p = some n := by
  obtain ⟨p, hp, hr⟩ := find_spec hf
  exact ⟨p, hp, length_of_indexes hp, hr⟩

/-- `find_pte` arrives where its path arrives. -/
theorem findPte_eq (hp : indexes vpn = p ++ [i]) :
    pt.findPte ph vpn = (reach Pte.child ph.page pt.rootPpn p).map fun n => (n, i) := by
  unfold PageTable.findPte
  rw [hp]
  cases hr : reach Pte.child ph.page pt.rootPpn p with
  | some n => exact find_of_reach hr
  | none =>
    cases hf : PageTable.find ph (p ++ [i]) pt.rootPpn with
    | none => rfl
    | some r =>
      obtain ⟨m, j⟩ := r
      obtain ⟨p', hp', hr'⟩ := find_spec hf
      obtain ⟨rfl, -⟩ := List.append_inj' hp' rfl
      rw [hr] at hr'
      cases hr'

/-- `map` grows the table along the path and writes the leaf. -/
theorem map_spec (h : pt.Wf ph) (hm : pt.map ph vpn ppn fl = some (pt', ph')) :
    ∃ ph₁ p n i, Grown pt ph (indexes vpn) pt' ph₁ ∧ indexes vpn = p ++ [i] ∧ p.length = 3 ∧
      reach Pte.child ph₁.page pt.rootPpn p = some n ∧ ph' = ph₁.set n i (Pte.new ppn fl) := by
  unfold PageTable.map at hm
  split at hm
  case h_1 n i pt₁ ph₁ hd =>
    cases hm
    obtain ⟨hg, p, hp, hr⟩ := findPteCreate_spec h hd
    exact ⟨ph₁, p, n, i, hg, hp, length_of_indexes hp, hr, rfl⟩
  case h_2 => cases hm

/-- `remap` and `unmap` write the leaf of a page that is mapped. -/
theorem remap_spec (hm : pt.remap ph vpn fl = some ph') :
    ∃ p n i, indexes vpn = p ++ [i] ∧ p.length = 3 ∧
      reach Pte.child ph.page pt.rootPpn p = some n ∧ Pte.isValid (ph.page n i) = true ∧
      ph' = ph.set n i (Pte.new (Pte.ppn (ph.page n i)) fl) := by
  unfold PageTable.remap at hm
  split at hm
  case h_1 n i hf =>
    obtain ⟨p, hp, hl, hr⟩ := findPte_spec hf
    split at hm
    · cases hm
      exact ⟨p, n, i, hp, hl, hr, by assumption, rfl⟩
    · cases hm
  case h_2 => cases hm

theorem unmap_spec (hm : pt.unmap ph vpn = some ph') :
    ∃ p n i, indexes vpn = p ++ [i] ∧ p.length = 3 ∧
      reach Pte.child ph.page pt.rootPpn p = some n ∧ Pte.isValid (ph.page n i) = true ∧
      ph' = ph.set n i 0 := by
  unfold PageTable.unmap at hm
  split at hm
  case h_1 n i hf =>
    obtain ⟨p, hp, hl, hr⟩ := findPte_spec hf
    split at hm
    · cases hm
      exact ⟨p, n, i, hp, hl, hr, by assumption, rfl⟩
    · cases hm
  case h_2 => cases hm

end Grow

end QuackOS.Mm
