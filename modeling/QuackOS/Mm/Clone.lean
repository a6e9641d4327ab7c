import QuackOS.Mm.Conservation

/-!
# Copying an address space

`clone_user_range` and `clone_user_mappings` of `bmm/mod.rs`: every EL0-accessible page of a
table is copied to a fresh frame and mapped at the same address of another table.

* `Outside` — a live frame that a handle does not use keeps its contents over `map`;
* `Cloned` — the invariant of the copy: what was visited so far is copied, and nothing else
  is mapped;
* `fork_copies_iff` — **the child has the parent's memory exactly when every page of the
  parent is accessible at EL0**.
-/

namespace QuackOS.Mm

open Radix (reach stop IsTree)

/-! ## The source's functions -/

/-- The virtual address of the page at the end of a path. -/
def pathVa : List Index → ℕ
  | [l0, l1, l2, l3] => l0.val <<< 39 ||| l1.val <<< 30 ||| l2.val <<< 21 ||| l3.val <<< 12
  | _ => 0

/-- A page of `clone_user_range`: frame `src` copied to a fresh one, which is mapped at `va`.
The error is the state in which the call returns out of memory, or a panic. -/
def clonePage (startVa endVa : ℕ) (s : PageTable × Phys) (va src : ℕ) (flags : PTEFlags) :
    Except (Option (PageTable × Phys)) (PageTable × Phys) :=
  if va < startVa ∨ endVa ≤ va then .ok s
  else
    match allocPage s.2 with
    | none => .error none
    | some (none, ph) => .error (some (s.1, ph))
    | some (some f, ph) =>
      match s.1.map (ph.fill f (ph.page src)) (va >>> 12) f flags with
      | some s => .ok s
      | none => .error none

/-- `clone_user_range`; `none` when it panics. -/
def cloneUserRange (src dst : PageTable) (ph : Phys) (startVa endVa : ℕ) :
    Option (Except MapError Unit × PageTable × Phys) :=
  let onBlock := fun (s : PageTable × Phys) (path : List Index) w => indices.foldlM (fun s (i : Index) =>
    clonePage startVa endVa s (pathVa (path ++ [i])) (Pte.ppn w + i) (Pte.flags w)) s
  let onPage := fun s path w =>
    clonePage startVa endVa s (pathVa path) (Pte.ppn w) (Pte.flags w)
  match forUserLeaves (fun s => s.2.page) src.rootPpn onBlock onPage (dst, ph) with
  | .ok s => some (.ok (), s)
  | .error (some s) => some (.error .outOfMemory, s)
  | .error none => none

/-- `clone_user_mappings`. -/
def cloneUserMappings (src dst : PageTable) (ph : Phys) :
    Option (Except MapError Unit × PageTable × Phys) :=
  cloneUserRange src dst ph 0 (2 ^ 64 - 1)

theorem shiftLeft_or_index (a b k : ℕ) (hb : b < 2 ^ 9) :
    a <<< (k + 9) ||| b <<< k = (2 ^ 9 * a + b) <<< k := by
  rw [Nat.two_pow_add_eq_or_of_lt hb, Nat.shiftLeft_or_distrib, Nat.add_comm k, Nat.shiftLeft_add,
    Nat.shiftLeft_eq a, Nat.mul_comm]

theorem pathVa_eq (l0 l1 l2 l3 : Index) : pathVa [l0, l1, l2, l3] =
    (2 ^ 9 * (2 ^ 9 * (2 ^ 9 * l0.val + l1.val) + l2.val) + l3.val) * 2 ^ 12 := by
  rw [pathVa, shiftLeft_or_index l0 l1 30 l1.isLt, shiftLeft_or_index _ l2 21 l2.isLt,
    shiftLeft_or_index _ l3 12 l3.isLt, Nat.shiftLeft_eq]

/-- The walk to the page at the end of a path goes along the path. -/
theorem indexes_pathVa {q : List Index} (hq : q.length = 4) :
    indexes (pathVa q >>> 12) = q ∧ pathVa q < 2 ^ 48 := by
  obtain ⟨l0, l1, l2, l3, rfl⟩ := List.length_eq_four.mp hq
  rw [pathVa_eq]
  constructor
  · simp only [indexes, Nat.shiftRight_eq_div_pow, List.cons.injEq, and_true, Fin.ext_iff,
      Fin.val_ofNat]
    omega
  · omega

/-! ## Frames outside a table -/

/-- A live frame that is neither a table of the handle nor the tracker page it writes to. -/
structure Outside (pt : PageTable) (ph : Phys) (g : ℕ) : Prop where
  live : ph.Live g
  tracker : pt.trackerHead ≠ some g
  node : ∀ q, q.length ≤ 3 → reach Pte.child ph.page pt.rootPpn q ≠ some g

/-- The state after `f` was popped from the free list and filled. -/
def Phys.popFill (ph : Phys) (f : ℕ) (rest : List ℕ) (ws : Index → Word) : Phys :=
  (ph.pop f rest).fill f ws

section Outside

variable {pt pt' : PageTable} {ph ph' : Phys} {f g vpn ppn : ℕ} {fl : PTEFlags} {rest : List ℕ}
  {ws : Index → Word}

theorem popFill_page_of_ne (h : g ≠ f) : (ph.popFill f rest ws).page g = ph.page g := by
  rw [Phys.popFill, Phys.fill_page_of_ne h, Phys.pop_page_of_ne h]

@[simp] theorem popFill_page_self : (ph.popFill f rest ws).page f = ws := Phys.fill_page_self

section Pop

variable (h : pt.Wf ph) (hfree : ph.free = f :: rest)
include h hfree

theorem popFill_agrees (q : List Index) (m : ℕ) (hq : q.length ≤ 3)
    (hm : reach Pte.child ph.page pt.rootPpn q = some m) :
    (ph.popFill f rest ws).page m = ph.page m :=
  popFill_page_of_ne ((h.node_live q m hq hm).ne_head hfree)

theorem leaf_popFill {q : List Index} (hq : q.length = 4) :
    leaf (ph.popFill f rest ws) pt.rootPpn q = leaf ph pt.rootPpn q := by
  rw [leaf, leaf, Radix.stop_congr_nodes (popFill_agrees h hfree) (by omega)]

omit h in
theorem live_popFill (hg : ph.Live g) : (ph.popFill f rest ws).Live g := by
  have : (ph.pop f rest).Live g := hg.pop hfree
  exact this

/-- A frame outside stays outside when another is taken from the free list. -/
theorem Outside.popFill (ho : Outside pt ph g) : Outside pt (ph.popFill f rest ws) g := by
  refine ⟨live_popFill hfree ho.live, ho.tracker, fun q hq => ?_⟩
  rw [Radix.reach_congr_nodes (popFill_agrees h hfree) (by omega)]
  exact ho.node q hq

/-- The frame that was taken is outside. -/
theorem outside_popFill_self : Outside pt (ph.popFill f rest ws) f := by
  have hmem : f ∈ ph.free := by simp [hfree]
  have hlive : (ph.pop f rest).Live f := Phys.Live.pop_self h.ok hfree
  refine ⟨hlive, fun ht => (h.tracker_live f ht).2 hmem, fun q hq hr => ?_⟩
  rw [Radix.reach_congr_nodes (popFill_agrees h hfree) (by omega)] at hr
  exact h.fresh hmem q hq hr

theorem wf_popFill : pt.Wf (ph.popFill f rest ws) := by
  have hreach : ∀ q, q.length ≤ 3 → reach Pte.child (ph.popFill f rest ws).page pt.rootPpn q =
      reach Pte.child ph.page pt.rootPpn q := fun q hq =>
    Radix.reach_congr_nodes (popFill_agrees h hfree) (by omega)
  refine ⟨(h.ok.pop hfree).fill, h.tree.congr (popFill_agrees h hfree), fun q m hq hm => ?_,
    fun t ht => live_popFill hfree (h.tracker_live t ht), fun t ht q hq => ?_⟩
  · rw [hreach q hq] at hm
    exact live_popFill hfree (h.node_live q m hq hm)
  · rw [hreach q hq]
    exact h.tracker_node t ht q hq

end Pop

/-- **`map` does not touch what is outside of its handle.** -/
theorem Outside.map (h : pt.Wf ph) (ho : Outside pt ph g)
    (hm : pt.map ph vpn ppn fl = some (pt', ph')) : Outside pt' ph' g ∧ ph'.page g = ph.page g := by
  obtain ⟨ph₁, p, n, i, hg, -, hl, hp, rfl⟩ := map_spec h hm
  have hnode : ∀ q, q.length ≤ 3 → reach Pte.child ph₁.page pt.rootPpn q ≠ some g := by
    intro q hq hr
    rcases hg.node q g hq hr with hr | hfree
    · exact ho.node q hq hr
    · exact ho.live.2 hfree
  have hgn : g ≠ n := by
    rintro rfl
    exact hnode p (by omega) hp
  have hp' : reach Pte.child ph₁.page pt'.rootPpn p = some n := by rw [hg.root, hp]
  have hlive : ph₁.Live g := hg.ext.live ho.live
  refine ⟨⟨hlive, fun ht => ?_, fun q hq => ?_⟩, ?_⟩
  · rcases hg.tracker g ht with ht | hfree
    · exact ho.tracker ht
    · exact ho.live.2 hfree
  · rw [show (ph₁.set n i (Pte.new ppn fl)).page = Radix.write ph₁.page n i (Pte.new ppn fl) from rfl,
      Radix.reach_write_leaf hg.wf.tree hp' hl hq, hg.root]
    exact hnode q hq
  · rw [Phys.set_page_of_ne hgn, hg.page g ho.live ho.tracker ho.node]

end Outside

/-! ## The copy -/

/-- A frame of the parent: one of its tables or of its pages. -/
def OfTable (ph : Phys) (root g : ℕ) : Prop := IsNode ph root g ∨ IsData ph root g

/-- The copy after the pages in `S` were visited: these are mapped by the child, each on a
frame of its own with the parent's attributes and contents, and no other page is; the
parent's frames are as they were. -/
structure Cloned (ph₀ : Phys) (root : ℕ) (S : Set (List Index)) (s : PageTable × Phys) : Prop where
  wf : s.1.Wf s.2
  parent : ∀ g, OfTable ph₀ root g → Outside s.1 s.2 g ∧ s.2.page g = ph₀.page g
  only : ∀ q w, q.length = 4 → leaf s.2 s.1.rootPpn q = some (3, w) → q ∈ S
  copy : ∀ q ∈ S, ∃ w f, UserLeaf ph₀.page root q w ∧ f < 2 ^ 36 ∧
    leaf s.2 s.1.rootPpn q = some (3, Pte.new f (Pte.flags w)) ∧ Outside s.1 s.2 f ∧
    ¬ OfTable ph₀ root f ∧ s.2.page f = ph₀.page (Pte.ppn w)
  inj : ∀ q q' w w', q.length = 4 → q'.length = 4 → leaf s.2 s.1.rootPpn q = some (3, w) →
    leaf s.2 s.1.rootPpn q' = some (3, w') → Pte.ppn w = Pte.ppn w' → q = q'

section Clone

variable {ph₀ : Phys} {root : ℕ} {kept : List ℕ} {S : Set (List Index)} {s s' : PageTable × Phys}
  {q : List Index} {w : Word}

/-- A page mapped on the last level stays mapped over `map` at another path. -/
theorem leaf_three_map {pt pt' : PageTable} {ph ph' : Phys} {vpn ppn : ℕ} {fl : PTEFlags}
    (h : pt.Wf ph) (hm : pt.map ph vpn ppn fl = some (pt', ph')) (hq : q.length = 4)
    (hne : q ≠ indexes vpn) :
    leaf ph' pt'.rootPpn q = some (3, w) ↔ leaf ph pt.rootPpn q = some (3, w) := by
  obtain ⟨-, hroot, hleaf⟩ := map_leaf h hm
  rw [hroot, hleaf q hq, if_neg hne]
  split
  case isFalse => rfl
  case isTrue hb =>
    -- below a block there is no page of the last level
    obtain ⟨b, hb, hbq⟩ := hb
    rw [leaf_of_blockMet hb rfl hq hbq]
    obtain ⟨l, w', hlw, hl, -⟩ := blockMet_eq_some hb
    rw [hlw]
    simp only [reduceCtorEq, Option.some.injEq, Prod.mk.injEq, false_iff, not_and]
    omega

/-- What copying one page does: the page is mapped on a frame that was free, with the contents of
the source, and what was outside of the handle stays as it was. -/
theorem clonePage_spec {pt pt' : PageTable} {ph ph' : Phys} {src : ℕ} {fl : PTEFlags}
    (h : pt.Wf ph) (hq : q.length = 4) (hsrc : ph.Live src)
    (hc : clonePage 0 (2 ^ 64 - 1) (pt, ph) (pathVa q) src fl = .ok (pt', ph')) :
    ∃ f ∈ ph.free, pt'.Wf ph' ∧ Outside pt' ph' f ∧ ph'.page f = ph.page src ∧
      (∀ g, Outside pt ph g → Outside pt' ph' g ∧ ph'.page g = ph.page g) ∧
      leaf ph' pt'.rootPpn q = some (3, Pte.new f fl) ∧
      ∀ q' w', q'.length = 4 → q' ≠ q →
        (leaf ph' pt'.rootPpn q' = some (3, w') ↔ leaf ph pt.rootPpn q' = some (3, w')) := by
  obtain ⟨hpath, hva⟩ := indexes_pathVa hq
  unfold clonePage at hc
  rw [if_neg (by omega)] at hc
  rcases allocPage_cases h.ok with ⟨-, ha⟩ | ⟨f, rest, hfree, ha⟩
  · simp [ha] at hc
  simp only [ha] at hc
  split at hc
  case h_2 => cases hc
  case h_1 s₁ hm =>
  cases hc
  have hcopy : (ph.pop f rest).page src = ph.page src := Phys.pop_page_of_ne (hsrc.ne_head hfree)
  rw [hcopy] at hm
  have hwf : pt.Wf (ph.popFill f rest (ph.page src)) := wf_popFill h hfree
  obtain ⟨hself, hpage⟩ := (outside_popFill_self h hfree).map hwf hm
  obtain ⟨hwf', hroot, hmap⟩ := map_leaf hwf hm
  refine ⟨f, by simp [hfree], hwf', hself, hpage.trans popFill_page_self, fun g hg => ?_, ?_, ?_⟩
  · obtain ⟨ho, hkept⟩ := (hg.popFill h hfree).map hwf hm
    exact ⟨ho, hkept.trans (popFill_page_of_ne (hg.live.ne_head hfree))⟩
  · rw [hroot, hmap q hq, if_pos hpath.symm]
  · intro q' w' hq' hne
    rw [leaf_three_map hwf hm hq' (by rw [hpath]; exact hne), leaf_popFill h hfree hq']

/-- No page of the child is on a frame that is free. -/
theorem Cloned.ne_free {f : ℕ} {q' : List Index} {w' : Word} (h : Cloned ph₀ root S s)
    (hf : f ∈ s.2.free) (hq : q'.length = 4) (hl : leaf s.2 s.1.rootPpn q' = some (3, w')) :
    Pte.ppn w' ≠ f := by
  rintro rfl
  obtain ⟨w₀, f', -, hf', hl', ho, -⟩ := h.copy q' (h.only q' w' hq hl)
  obtain ⟨-, rfl⟩ := Prod.mk.inj (Option.some.inj (hl.symm.trans hl'))
  rw [Pte.ppn_new hf'] at hf
  exact ho.live.2 hf

/-- **One page is copied.** -/
theorem Cloned.step (hp : UserTable root kept ph₀) (h : Cloned ph₀ root S s) (hq : q ∉ S)
    (hw : UserLeaf ph₀.page root q w)
    (hc : clonePage 0 (2 ^ 64 - 1) s (pathVa q) (Pte.ppn w) (Pte.flags w) = .ok s') :
    Cloned ph₀ root (S ∪ {q}) s' := by
  obtain ⟨pt, ph⟩ := s
  obtain ⟨pt', ph'⟩ := s'
  obtain ⟨hq4, hleaf⟩ := hp.leaf_of_userLeaf hw
  obtain ⟨hsrc, hsrcPage⟩ := h.parent (Pte.ppn w) (Or.inr ⟨q, w, hq4, hleaf, rfl⟩)
  obtain ⟨f, hfmem, hwf', hself, hpage, hout, hnew, hold⟩ := clonePage_spec h.wf hq4 hsrc.live hc
  have hf36 : f < 2 ^ 36 := h.wf.ok.lt_of_tracked (h.wf.ok.tracked f hfmem)
  refine ⟨hwf', fun g hg => ?_, fun q' w' hq' hl => ?_, ?_, fun q₁ q₂ w₁ w₂ h₁ h₂ hl₁ hl₂ heq => ?_⟩
  · obtain ⟨ho, hkept⟩ := hout g (h.parent g hg).1
    exact ⟨ho, hkept.trans (h.parent g hg).2⟩
  · by_cases hne : q' = q
    · exact Or.inr hne
    · exact Or.inl (h.only q' w' hq' ((hold q' w' hq' hne).mp hl))
  · rintro q' (hq' | rfl)
    · obtain ⟨w', f', hu, hf', hl, ho, hnot, hcopied⟩ := h.copy q' hq'
      have hne : q' ≠ q := by
        rintro rfl
        exact hq hq'
      obtain ⟨ho', hkept⟩ := hout f' ho
      exact ⟨w', f', hu, hf', (hold q' _ (hp.leaf_of_userLeaf hu).1 hne).mpr hl, ho', hnot,
        hkept.trans hcopied⟩
    · exact ⟨w, f, hw, hf36, hnew, hself, fun hg => (h.parent f hg).1.live.2 hfmem,
        hpage.trans hsrcPage⟩
  · have hppn : ∀ w', leaf ph' pt'.rootPpn q = some (3, w') → Pte.ppn w' = f := by
      intro w' hl
      obtain ⟨-, rfl⟩ := Prod.mk.inj (Option.some.inj (hl.symm.trans hnew))
      exact Pte.ppn_new hf36
    -- the frame of the new page carries no other page
    have hother : ∀ q' w', q'.length = 4 → q' ≠ q → leaf ph' pt'.rootPpn q' = some (3, w') →
        Pte.ppn w' ≠ f :=
      fun q' w' hq' hne hl => h.ne_free hfmem hq' ((hold q' w' hq' hne).mp hl)
    by_cases hne₁ : q₁ = q <;> by_cases hne₂ : q₂ = q
    · rw [hne₁, hne₂]
    · subst hne₁
      rw [hppn w₁ hl₁] at heq
      exact absurd heq.symm (hother q₂ w₂ h₂ hne₂ hl₂)
    · subst hne₂
      rw [hppn w₂ hl₂] at heq
      exact absurd heq (hother q₁ w₁ h₁ hne₁ hl₁)
    · exact h.inj q₁ q₂ w₁ w₂ h₁ h₂ ((hold q₁ w₁ h₁ hne₁).mp hl₁) ((hold q₂ w₂ h₂ hne₂).mp hl₂) heq

/-- The copy starts with a new table that maps no page. -/
theorem Created.cloned {pt : PageTable} {ph : Phys} {r l1 tr lo mid : ℕ} {rest : List ℕ}
    (hp : UserTable root kept ph₀) (h : Created ph₀ pt ph r l1 tr lo mid rest) :
    Cloned ph₀ root ∅ (pt, ph) := by
  have hok : ph₀.Ok := hp.wf.ok
  have hroot : pt.rootPpn = r := by rw [h.handle]
  refine ⟨h.wf hok, fun g hg => ?_, fun q w hq hl => ?_, fun q hq => hq.elim,
    fun q q' w w' hq _ hl => ?_⟩
  · have hlive : ph₀.Live g := hp.live_of_used (hg.imp id Or.inr)
    have hnot : g ∉ [r, l1, tr, lo, mid] := by
      intro hmem
      apply hlive.2
      rw [h.taken_from]
      exact List.mem_append_left rest hmem
    refine ⟨⟨⟨?_, fun hf => ?_⟩, fun ht => ?_, fun q hq hr => ?_⟩, h.page_other g hnot⟩
    · rw [Phys.tracked_congr h.base]
      exact hlive.1
    · apply hlive.2
      rw [show (pt, ph).2.free = rest from h.free] at hf
      rw [h.taken_from]
      exact List.mem_append_right [r, l1, tr, lo, mid] hf
    · rw [h.handle] at ht
      cases ht
      exact hnot (by simp)
    · rw [hroot] at hr
      rcases h.reach_eq_some hok hr with ⟨-, rfl⟩ | ⟨-, rfl⟩ | ⟨-, rfl⟩ | ⟨-, rfl⟩ <;>
        exact hnot (by simp)
  · rw [hroot] at hl
    exact absurd hl (h.leaf_three hok hq)
  · rw [hroot] at hl
    exact absurd hl (h.leaf_three hok hq)

/-- **`clone_user_mappings` copies every page that EL0 may access, and nothing else.** -/
theorem cloneUserMappings_spec {src dst dst' : PageTable} {ph ph' : Phys}
    (hp : UserTable src.rootPpn kept ph₀) (h : Cloned ph₀ src.rootPpn ∅ (dst, ph))
    (hc : cloneUserMappings src dst ph = some (.ok (), dst', ph')) :
    Cloned ph₀ src.rootPpn {q | ∃ w, UserLeaf ph₀.page src.rootPpn q w} (dst', ph') := by
  have hends := @forUserLeaves_ends (PageTable × Phys) (fun s => s.2.page) src.rootPpn ph₀.page
    (Cloned ph₀ src.rootPpn) (fun _ => True)
    (fun s path w => indices.foldlM (fun s (i : Index) =>
      clonePage 0 (2 ^ 64 - 1) s (pathVa (path ++ [i])) (Pte.ppn w + i) (Pte.flags w)) s)
    (fun s path w => clonePage 0 (2 ^ 64 - 1) s (pathVa path) (Pte.ppn w) (Pte.flags w)) (dst, ph)
    (fun S s hs p n hp hr => (hs.parent n (Or.inl ⟨p, hp, hr⟩)).2)
    (fun p n i hl hr => hp.block_word hl hr)
    (fun S s q w hs hq hw => ⟨fun s' hs' => hs.step hp hq hw hs', fun _ _ => trivial⟩) h
  unfold cloneUserMappings cloneUserRange at hc
  dsimp only at hc
  split at hc
  case h_1 s hs =>
    cases hc
    exact hends.ok _ hs
  case h_2 => cases hc
  case h_3 => cases hc

/-- Without a page for EL0 the loops copy nothing. -/
theorem cloneUserMappings_of_no_leaf {src dst : PageTable} {ph : Phys}
    (hp : UserTable src.rootPpn kept ph₀) (h : Cloned ph₀ src.rootPpn ∅ (dst, ph))
    (hno : ∀ q w, ¬ UserLeaf ph₀.page src.rootPpn q w) :
    cloneUserMappings src dst ph = some (.ok (), dst, ph) := by
  have hends := @forUserLeaves_ends (PageTable × Phys) (fun s => s.2.page) src.rootPpn ph₀.page
    (fun _ s => s = (dst, ph)) (fun _ => False)
    (fun s path w => indices.foldlM (fun s (i : Index) =>
      clonePage 0 (2 ^ 64 - 1) s (pathVa (path ++ [i])) (Pte.ppn w + i) (Pte.flags w)) s)
    (fun s path w => clonePage 0 (2 ^ 64 - 1) s (pathVa path) (Pte.ppn w) (Pte.flags w)) (dst, ph)
    ?_ (fun p n i hl hr => hp.block_word hl hr) (fun S s q w hs hq hw => absurd hw (hno q w)) rfl
  case refine_1 =>
    rintro - s rfl p n hlp hr
    exact (h.parent n (Or.inl ⟨p, hlp, hr⟩)).2
  unfold cloneUserMappings cloneUserRange
  dsimp only
  split
  case h_1 s hs => rw [hends.ok s hs]
  case h_2 s hs => exact (hends.error _ hs).elim
  case h_3 hs => exact (hends.error _ hs).elim

/-- One page for EL0: the loops end if it can be copied. -/
theorem cloneUserMappings_of_one_leaf {src dst : PageTable} {ph : Phys}
    (hp : UserTable src.rootPpn kept ph₀) (h : Cloned ph₀ src.rootPpn ∅ (dst, ph))
    (hone : ∀ q' w', UserLeaf ph₀.page src.rootPpn q' w' → q' = q ∧ w' = w)
    (hc : clonePage 0 (2 ^ 64 - 1) (dst, ph) (pathVa q) (Pte.ppn w) (Pte.flags w) = .ok s) :
    ∃ s, cloneUserMappings src dst ph = some (.ok (), s) := by
  have hends := @forUserLeaves_ends (PageTable × Phys) (fun s => s.2.page) src.rootPpn ph₀.page
    (fun S s => Cloned ph₀ src.rootPpn S s ∧ (S = ∅ ∧ s = (dst, ph) ∨ q ∈ S)) (fun _ => False)
    (fun s path w => indices.foldlM (fun s (i : Index) =>
      clonePage 0 (2 ^ 64 - 1) s (pathVa (path ++ [i])) (Pte.ppn w + i) (Pte.flags w)) s)
    (fun s path w => clonePage 0 (2 ^ 64 - 1) s (pathVa path) (Pte.ppn w) (Pte.flags w)) (dst, ph)
    (fun S s hs p n hp hr => (hs.1.parent n (Or.inl ⟨p, hp, hr⟩)).2)
    (fun p n i hl hr => hp.block_word hl hr) ?_ ⟨h, Or.inl ⟨rfl, rfl⟩⟩
  case refine_1 =>
    rintro S s' q' w' ⟨hcl, hs⟩ hq hw
    obtain ⟨rfl, rfl⟩ := hone q' w' hw
    rcases hs with ⟨rfl, rfl⟩ | hq'
    · rw [hc]
      exact Run.ends_ok ⟨hcl.step hp hq hw hc, Or.inr (Or.inr rfl)⟩
    · exact absurd hq' hq
  unfold cloneUserMappings cloneUserRange
  dsimp only
  split
  case h_1 s hs => exact ⟨s, rfl⟩
  case h_2 s hs => exact (hends.error _ hs).elim
  case h_3 hs => exact (hends.error _ hs).elim

end Clone

/-! ## Fork -/

/-- The attribute bits that decide about access: valid, AP, UXN, PXN and nG. -/
def Pte.accessBits : Word := 1 ||| 0b11 <<< 6 ||| uxn ||| pxn ||| ng

/-- The child has the parent's memory: every page of the parent is mapped by the child at the
same address, with the same attributes and contents, on frames that are all different and
none of the parent's. -/
structure ForkCopy (ph : Phys) (parent : PageTable) (ph' : Phys) (child : PageTable) : Prop where
  page : ∀ vpn w, leaf ph parent.rootPpn (indexes vpn) = some (3, w) →
    ∃ w', leaf ph' child.rootPpn (indexes vpn) = some (3, w') ∧
      w' &&& Pte.accessBits = w &&& Pte.accessBits ∧
      ph'.page (Pte.ppn w') = ph.page (Pte.ppn w) ∧ ¬ OfTable ph parent.rootPpn (Pte.ppn w')
  distinct : ∀ vpn vpn' w w', leaf ph' child.rootPpn (indexes vpn) = some (3, w) →
    leaf ph' child.rootPpn (indexes vpn') = some (3, w') → Pte.ppn w = Pte.ppn w' →
    indexes vpn = indexes vpn'

section Fork

variable {ph ph' : Phys} {root : ℕ} {kept : List ℕ} {q : List Index} {w : Word}

/-- The user leaves are the pages with the EL0 bit. -/
theorem UserTable.userLeaf_iff (h : UserTable root kept ph) (hq : q.length = 4) :
    UserLeaf ph.page root q w ↔ Mm.leaf ph root q = some (3, w) ∧ w &&& Pte.el0Bit ≠ 0 := by
  constructor
  · intro hw
    refine ⟨(h.leaf_of_userLeaf hw).2, ?_⟩
    obtain ⟨-, -, -, -, -, -, -, -, he⟩ := hw
    exact he
  · rintro ⟨hl, he⟩
    obtain ⟨p, n, i, rfl, hp, hr, rfl, hleaf⟩ := (leaf_three_iff hq).mp hl
    refine ⟨p, n, i, rfl, hp, hr, rfl, fun hz => ?_, he⟩
    rcases h.word p n i hp hr with h0 | ⟨f, prot, hf, hw⟩
    · rw [h0] at he
      exact he rfl
    · rw [hw, Pte.new_and hf (by decide)] at hz
      exact Pte.attrs_cases (protFlags prot) (fun a => a &&& 1 ≠ 0) (by decide) hz

theorem Cloned.forkCopy_iff {parent child : PageTable} (hp : UserTable parent.rootPpn kept ph)
    (h : Cloned ph parent.rootPpn {q | ∃ w, UserLeaf ph.page parent.rootPpn q w} (child, ph')) :
    ForkCopy ph parent ph' child ↔ ∀ vpn w, leaf ph parent.rootPpn (indexes vpn) = some (3, w) →
      w &&& Pte.el0Bit ≠ 0 := by
  constructor
  · intro hcopy vpn w hw
    -- what the child maps was visited
    obtain ⟨w', hw', -⟩ := hcopy.page vpn w hw
    obtain ⟨w₀, hu⟩ := h.only _ w' rfl hw'
    obtain ⟨hl, he⟩ := (hp.userLeaf_iff rfl).mp hu
    obtain ⟨-, rfl⟩ := Prod.mk.inj (Option.some.inj (hw.symm.trans hl))
    exact he
  · intro hel0
    refine ⟨fun vpn w hw => ?_, fun vpn vpn' w w' hw hw' heq => h.inj _ _ w w' rfl rfl hw hw' heq⟩
    have hu : UserLeaf ph.page parent.rootPpn (indexes vpn) w :=
      (hp.userLeaf_iff rfl).mpr ⟨hw, hel0 vpn w hw⟩
    obtain ⟨w₀, f, hu₀, hf, hl, -, hnot, hpage⟩ := h.copy _ ⟨w, hu⟩
    obtain ⟨-, rfl⟩ := Prod.mk.inj (Option.some.inj
      ((hp.leaf_of_userLeaf hu₀).2.symm.trans (hp.leaf_of_userLeaf hu).2))
    obtain ⟨p, n, i, -, hlp, hr, hword, hv, he⟩ := hu
    obtain ⟨f₀, prot, hf₀, hnew, -⟩ := hp.word_valid (i := i) hr hlp (by
      rw [hword]
      simpa [Pte.isValid] using hv)
    rw [hword] at hnew
    subst hnew
    refine ⟨_, hl, ?_, ?_, ?_⟩
    · rw [Pte.new_flags hf₀ he, Pte.new_and hf (by decide), Pte.new_and hf₀ (by decide)]
    · rw [Pte.ppn_new hf]
      exact hpage
    · rw [Pte.ppn_new hf]
      exact hnot

end Fork

section Whole

variable {ph₀ ph₁ ph₂ ph₃ ph₄ : Phys} {parent child child' : PageTable} {cpu : Cpu}
  {ops : List UserOp}

/-- A thread that runs on a new table keeps the invariant of its calls. -/
theorem runUser_userTable (hok : ph₀.Ok)
    (hc : createKernelMappedPageTable ph₀ = some (.ok parent, ph₁))
    (hcpu : cpu.ttbr0 = parent.token) (hrun : runUser cpu ph₁ ops = some ph₂) :
    ∃ kept, UserTable parent.rootPpn kept ph₂ := by
  obtain ⟨root, l1, tr, lo, mid, rest, hcr⟩ := create_spec hok hc
  have hroot : parent.rootPpn = root := by rw [hcr.handle]
  have hview : currentPageTable cpu = view root := by
    rw [← hroot]
    apply currentPageTable_token hcpu
    rw [hroot]
    exact Phys.Ok.ne_zero_of_tracked (hcr.live hok (f := root) (by simp)).1
  refine ⟨[tr], ?_⟩
  rw [hroot]
  exact Run.foldlM_invariant (fun _ _ _ _ hs hstep => (UserOp.step hs hview hstep).table)
    (hcr.userTable hok) hrun

/-- **Fork gives the child the parent's memory exactly when every page of the parent is
accessible at EL0.**  The parent's table is built by `create_kernel_mapped_page_table` and
any calls of its thread, the child's is new, and `clone_user_mappings` returns `Ok`. -/
theorem fork_copies_iff (hok : ph₀.Ok)
    (hc : createKernelMappedPageTable ph₀ = some (.ok parent, ph₁))
    (hcpu : cpu.ttbr0 = parent.token) (hrun : runUser cpu ph₁ ops = some ph₂)
    (hc' : createKernelMappedPageTable ph₂ = some (.ok child, ph₃))
    (hclone : cloneUserMappings parent child ph₃ = some (.ok (), child', ph₄)) :
    ForkCopy ph₂ parent ph₄ child' ↔
      ∀ vpn w, leaf ph₂ parent.rootPpn (indexes vpn) = some (3, w) → w &&& Pte.el0Bit ≠ 0 := by
  obtain ⟨kept, hp⟩ := runUser_userTable hok hc hcpu hrun
  obtain ⟨r, l1, tr, lo, mid, rest, hcr⟩ := create_spec hp.wf.ok hc'
  exact (cloneUserMappings_spec hp (hcr.cloned hp) hclone).forkCopy_iff hp

/-- After one call of `sys_map_page` on a new table one page is mapped, in the first free frame. -/
theorem leaf_of_mapPage {va prot f : ℕ} {rest : List ℕ} (hok : ph₀.Ok)
    (hc : createKernelMappedPageTable ph₀ = some (.ok parent, ph₁))
    (hcpu : cpu.ttbr0 = parent.token) (hgood : badAddr va = false) (hfree : ph₁.free = f :: rest)
    (hrun : runUser cpu ph₁ [.mapPage va prot] = some ph₂) {q : List Index} {w : Word}
    (hq : q.length = 4) : leaf ph₂ parent.rootPpn q = some (3, w) ↔
      q = indexes (va / 4096) ∧ w = Pte.new f (protFlags prot) := by
  obtain ⟨root, l1, tr, lo, mid, rest', hcr⟩ := create_spec hok hc
  have hroot : parent.rootPpn = root := by rw [hcr.handle]
  have htable := hcr.userTable hok
  have hview : currentPageTable cpu = view root := by
    rw [← hroot]
    apply currentPageTable_token hcpu
    rw [hroot]
    exact Phys.Ok.ne_zero_of_tracked (hcr.live hok (f := root) (by simp)).1
  have hrun' : (UserOp.mapPage va prot).run cpu ph₁ = some ph₂ := by
    simpa [runUser] using hrun
  have hm := map_of_run htable (fun p n hp => hcr.reach_three hok hp) hview hgood hfree hrun'
  obtain ⟨-, -, hleaf⟩ := map_leaf (htable.pop hfree).wf hm
  rw [hroot]
  by_cases hne : q = indexes (va / 4096)
  · rw [hne, show leaf ph₂ root (indexes (va / 4096)) = _ from hleaf (indexes (va / 4096)) rfl,
      if_pos rfl]
    simp [eq_comm]
  · rw [show leaf ph₂ root q = _ ↔ _ from leaf_three_map (htable.pop hfree).wf hm hq hne,
      show (view root).rootPpn = root from rfl, UserTable.leaf_agree (fun n hn => ?_) hq]
    · exact iff_of_false (hcr.leaf_three hok hq) fun h => hne h.1
    · exact Phys.pop_page_of_ne ((htable.live_of_used (Or.inl hn)).ne_head hfree)

/-- The first frame of a machine with sixteen becomes the root, and the sixth is free then. -/
theorem created_sixteenFrames
    (hc : createKernelMappedPageTable sixteenFrames = some (.ok parent, ph₁)) :
    (⟨0x50000000, 0⟩ : Cpu).ttbr0 = parent.token ∧ ∃ rest, ph₁.free = 0x50005 :: rest := by
  obtain ⟨root, l1, tr, lo, mid, rest, hcr⟩ := create_spec sixteenFrames_ok hc
  have htaken := hcr.taken_from
  simp only [sixteenFrames, List.cons.injEq] at htaken
  refine ⟨?_, _, by rw [hcr.free, ← htaken.2.2.2.2.2]⟩
  rw [PageTable.token, show parent.rootPpn = root by rw [hcr.handle], ← htaken.1]

/-- A parent with one page mapped, on a machine with sixteen free frames, and a new child. -/
def forkStart (prot : ℕ) : Option (PageTable × Phys × Phys × PageTable × Phys) :=
  match createKernelMappedPageTable sixteenFrames with
  | some (.ok parent, ph₁) =>
    match runUser ⟨0x50000000, 0⟩ ph₁ [.mapPage 0x400000 prot] with
    | some ph₂ =>
      match createKernelMappedPageTable ph₂ with
      | some (.ok child, ph₃) => some (parent, ph₁, ph₂, child, ph₃)
      | _ => none
    | none => none
  | _ => none

theorem forkStart_spec {prot : ℕ} (h : forkStart prot = some (parent, ph₁, ph₂, child, ph₃)) :
    createKernelMappedPageTable sixteenFrames = some (.ok parent, ph₁) ∧
      (⟨0x50000000, 0⟩ : Cpu).ttbr0 = parent.token ∧
      runUser ⟨0x50000000, 0⟩ ph₁ [.mapPage 0x400000 prot] = some ph₂ ∧
      createKernelMappedPageTable ph₂ = some (.ok child, ph₃) ∧
      ∀ q w, q.length = 4 → (leaf ph₂ parent.rootPpn q = some (3, w) ↔
        q = indexes 0x400 ∧ w = Pte.new 0x50005 (protFlags prot)) := by
  unfold forkStart at h
  split at h
  case h_2 => cases h
  case h_1 parent ph₁ hc =>
  split at h
  case h_2 => cases h
  case h_1 ph₂ hrun =>
  split at h
  case h_2 => cases h
  case h_1 child ph₃ hc' =>
  cases h
  obtain ⟨hcpu, rest, hfree⟩ := created_sixteenFrames hc
  exact ⟨hc, hcpu, hrun, hc', fun q w hq =>
    leaf_of_mapPage sixteenFrames_ok hc hcpu rfl hfree hrun hq⟩

/-- A readable and writable page of the parent is copied. -/
theorem fork_copies_iff_writable :
    ∃ ph₁ ph₂ ph₃ ph₄ : Phys, ∃ parent child child' : PageTable,
      createKernelMappedPageTable sixteenFrames = some (.ok parent, ph₁) ∧
      runUser ⟨0x50000000, 0⟩ ph₁ [.mapPage 0x400000 3] = some ph₂ ∧
      createKernelMappedPageTable ph₂ = some (.ok child, ph₃) ∧
      cloneUserMappings parent child ph₃ = some (.ok (), child', ph₄) ∧
      leaf ph₂ parent.rootPpn (indexes 0x400) = some (3, Pte.new 0x50005 (protFlags 3)) ∧
      ForkCopy ph₂ parent ph₄ child' := by
  have hstart : ((forkStart 3).any fun s => match clonePage 0 (2 ^ 64 - 1) s.2.2.2
      (pathVa (indexes 0x400)) (Pte.ppn (Pte.new 0x50005 (protFlags 3)))
      (Pte.flags (Pte.new 0x50005 (protFlags 3))) with
      | .ok _ => true
      | .error _ => false) = true := by decide
  obtain ⟨⟨parent, ph₁, ph₂, child, ph₃⟩, hs, hpage⟩ := (Option.any_eq_true _ _).mp hstart
  obtain ⟨hc, hcpu, hrun, hc', hleaf⟩ := forkStart_spec hs
  obtain ⟨kept, hp⟩ := runUser_userTable sixteenFrames_ok hc hcpu hrun
  obtain ⟨r, l1, tr, lo, mid, rest, hcr⟩ := create_spec hp.wf.ok hc'
  dsimp only at hpage
  split at hpage
  case h_2 => cases hpage
  case h_1 s₁ hs₁ =>
  obtain ⟨⟨child', ph₄⟩, hclone⟩ := cloneUserMappings_of_one_leaf hp (hcr.cloned hp)
    (fun q w hw => (hleaf q w (hp.leaf_of_userLeaf hw).1).mp (hp.leaf_of_userLeaf hw).2) hs₁
  refine ⟨ph₁, ph₂, ph₃, ph₄, parent, child, child', hc, hrun, hc', hclone,
    (hleaf _ _ rfl).mpr ⟨rfl, rfl⟩, ?_⟩
  refine (fork_copies_iff sixteenFrames_ok hc hcpu hrun hc' hclone).mpr fun vpn w hw => ?_
  obtain ⟨-, rfl⟩ := (hleaf _ w rfl).mp hw
  decide

/-- A page that was mapped without any access is missing in the child. -/
theorem fork_drops_inaccessible_page :
    ∃ ph₁ ph₂ ph₃ : Phys, ∃ parent child : PageTable,
      createKernelMappedPageTable sixteenFrames = some (.ok parent, ph₁) ∧
      (⟨0x50000000, 0⟩ : Cpu).ttbr0 = parent.token ∧
      runUser ⟨0x50000000, 0⟩ ph₁ [.mapPage 0x400000 0] = some ph₂ ∧
      createKernelMappedPageTable ph₂ = some (.ok child, ph₃) ∧
      cloneUserMappings parent child ph₃ = some (.ok (), child, ph₃) ∧
      leaf ph₂ parent.rootPpn (indexes 0x400) = some (3, Pte.new 0x50005 (protFlags 0)) ∧
      ¬ ForkCopy ph₂ parent ph₃ child := by
  have hstart : (forkStart 0).isSome = true := by decide
  obtain ⟨⟨parent, ph₁, ph₂, child, ph₃⟩, hs⟩ := Option.isSome_iff_exists.mp hstart
  obtain ⟨hc, hcpu, hrun, hc', hleaf⟩ := forkStart_spec hs
  obtain ⟨kept, hp⟩ := runUser_userTable sixteenFrames_ok hc hcpu hrun
  obtain ⟨r, l1, tr, lo, mid, rest, hcr⟩ := create_spec hp.wf.ok hc'
  have hmapped : leaf ph₂ parent.rootPpn (indexes 0x400) =
      some (3, Pte.new 0x50005 (protFlags 0)) := (hleaf _ _ rfl).mpr ⟨rfl, rfl⟩
  have hclone := cloneUserMappings_of_no_leaf hp (hcr.cloned hp) fun q w hw => by
    obtain ⟨hq, -⟩ := hp.leaf_of_userLeaf hw
    obtain ⟨hl, he⟩ := (hp.userLeaf_iff hq).mp hw
    obtain ⟨-, rfl⟩ := (hleaf q w hq).mp hl
    exact he (by decide)
  refine ⟨ph₁, ph₂, ph₃, parent, child, hc, hcpu, hrun, hc', hclone, hmapped, fun hcopy => ?_⟩
  have := ((cloneUserMappings_spec hp (hcr.cloned hp) hclone).forkCopy_iff hp).mp hcopy _ _ hmapped
  exact this (by decide)

end Whole

end QuackOS.Mm
