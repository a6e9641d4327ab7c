import QuackOS.Mm.Clone
import QuackOS.Mm.Lookup

/-!
# Granting a page

`bmm::grant` unmaps a page in one address space and maps its frame in another.  The second step
may be refused, and then the first is not undone; and it may replace a block of the receiver.

* `Bmm.map`, `Bmm.unmap`, `Bmm.grant` — the functions of `bmm/mod.rs`;
* `GrantAtomic` — an error changes no translation, and a grant moves one page;
* `grantAtomic_iff` — a call that returns is atomic just when the sender has nothing to grant, or
  the receiver has neither a page nor a block in that place.
-/

namespace QuackOS.Mm

open Radix (reach stop)

namespace Bmm

/-- `MapFlags::to_pte_flags`. -/
def toPteFlags (flags : BitVec 16) : PTEFlags :=
  ((PTEFlags.mk flags).insert PTEFlags.V |>.insert PTEFlags.A).insert PTEFlags.D

/-- `MapError`, as far as these functions return it. -/
inductive MapError
  | alreadyMapped
  | notMapped
  deriving DecidableEq

/-- `bmm::map`; `none` is a panic. -/
def map (pt : PageTable) (ph : Phys) (vaddr paddr : ℕ) (flags : BitVec 16) :
    Option (Except MapError Unit × PageTable × Phys) :=
  if isMapped pt ph vaddr then some (.error .alreadyMapped, pt, ph)
  else (pt.map ph (vaddr / 4096) (paddr / 4096) (toPteFlags flags)).map fun r => (.ok (), r)

/-- `bmm::unmap`. -/
def unmap (pt : PageTable) (ph : Phys) (vaddr : ℕ) : Option (Except MapError ℕ × Phys) :=
  match pt.translateVpnToPte ph (vaddr / 4096) with
  | none => some (.error .notMapped, ph)
  | some pte =>
    if !Pte.isValid pte then some (.error .notMapped, ph)
    else (pt.unmap ph (vaddr / 4096)).map fun ph => (.ok (Pte.ppn pte * 4096), ph)

/-- `bmm::grant`. -/
def grant (src dst : PageTable) (ph : Phys) (vaddr : ℕ) (flags : BitVec 16) :
    Option (Except MapError Unit × PageTable × Phys) :=
  match unmap src ph vaddr with
  | none => none
  | some (.error e, ph) => some (.error e, dst, ph)
  | some (.ok paddr, ph) => map dst ph vaddr paddr flags

end Bmm

/-- Two address spaces: the tables of the sender are no tables of the receiver, nor the page in
which the receiver writes its tables down; and a valid word of the sender's last level is a page. -/
structure Apart (src dst : PageTable) (ph : Phys) : Prop where
  sender : src.Wf ph
  receiver : dst.Wf ph
  outside : ∀ p n, p.length ≤ 3 → reach Pte.child ph.page src.rootPpn p = some n →
    Outside dst ph n
  word : ∀ p n i, p.length = 3 → reach Pte.child ph.page src.rootPpn p = some n →
    Pte.isValid (ph.page n i) = true → isLeaf 3 (ph.page n i) = true

/-- What a grant is to do: the page of the sender, with its frame, becomes a page of the receiver,
with the flags of the call, and every other page stays as it is. -/
structure Granted (src dst : PageTable) (ph ph' : Phys) (path : List Index) (fl : PTEFlags)
    (w : Word) : Prop where
  had : leaf ph src.rootPpn path = some (3, w)
  unmapped : leaf ph' src.rootPpn path = none
  mapped : leaf ph' dst.rootPpn path = some (3, Pte.new (Pte.ppn w) fl)
  others : ∀ q, q.length = 4 → q ≠ path → leaf ph' src.rootPpn q = leaf ph src.rootPpn q ∧
    leaf ph' dst.rootPpn q = leaf ph dst.rootPpn q

/-- **A grant is atomic**: with an error no translation has changed. -/
def GrantAtomic (src dst : PageTable) (ph ph' : Phys) (vaddr : ℕ) (flags : BitVec 16) :
    Except Bmm.MapError Unit → Prop
  | .error _ => ∀ q, q.length = 4 → leaf ph' src.rootPpn q = leaf ph src.rootPpn q ∧
      leaf ph' dst.rootPpn q = leaf ph dst.rootPpn q
  | .ok () => ∃ w, Granted src dst ph ph' (indexes (vaddr / 4096)) (Bmm.toPteFlags flags) w

/-- If the sender has a page there, the receiver has neither a page nor a block. -/
def GrantFits (src dst : PageTable) (ph : Phys) (vaddr : ℕ) : Prop :=
  Bmm.isMapped src ph vaddr = true →
    Bmm.isMapped dst ph vaddr = false ∧ blockMet ph dst.rootPpn (indexes (vaddr / 4096)) = none

section Outside

variable {pt pt' : PageTable} {ph ph' : Phys} {g vpn : ℕ} {i : Index} {w : Word}

theorem Outside.set_agrees (ho : Outside pt ph g) (q : List Index) (m : ℕ) (hq : q.length ≤ 3)
    (hm : reach Pte.child ph.page pt.rootPpn q = some m) : (ph.set g i w).page m = ph.page m := by
  apply Phys.set_page_of_ne
  rintro rfl
  exact ho.node q hq hm

theorem Outside.reach_set (ho : Outside pt ph g) {q : List Index} (hq : q.length ≤ 3) :
    reach Pte.child (ph.set g i w).page pt.rootPpn q = reach Pte.child ph.page pt.rootPpn q :=
  Radix.reach_congr_nodes ho.set_agrees (by omega)

/-- A write to a frame outside of a table does not show in its leaves. -/
theorem Outside.leaf_set (ho : Outside pt ph g) {q : List Index} (hq : q.length = 4) :
    leaf (ph.set g i w) pt.rootPpn q = leaf ph pt.rootPpn q := by
  rw [leaf, leaf, Radix.stop_congr_nodes ho.set_agrees (by omega)]

theorem Outside.wf_set (ho : Outside pt ph g) (h : pt.Wf ph) : pt.Wf (ph.set g i w) := by
  refine ⟨h.ok.set, h.tree.congr ho.set_agrees, fun q m hq hm => ?_, h.tracker_live,
    fun t ht q hq => ?_⟩
  · rw [ho.reach_set hq] at hm
    exact h.node_live q m hq hm
  · rw [ho.reach_set hq]
    exact h.tracker_node t ht q hq

/-- What is outside stays outside. -/
theorem Outside.set {x : ℕ} (ho : Outside pt ph g) (hx : Outside pt ph x) :
    Outside pt (ph.set g i w) x := by
  refine ⟨hx.live, hx.tracker, fun q hq => ?_⟩
  rw [ho.reach_set hq]
  exact hx.node q hq

theorem Outside.isMapped_set (ho : Outside pt ph g) (va : ℕ) :
    Bmm.isMapped pt (ph.set g i w) va = Bmm.isMapped pt ph va := by
  have hsame : pt.translateVpnToPte (ph.set g i w) (va / 4096) =
      pt.translateVpnToPte ph (va / 4096) := by
    rw [pte_eq (indexes_eq _), pte_eq (indexes_eq _), ho.reach_set (by simp)]
    cases hr : reach Pte.child ph.page pt.rootPpn ((indexes (va / 4096)).take 3) with
    | none => rfl
    | some m => rw [Option.map_some, Option.map_some, ho.set_agrees _ m (by simp) hr]
  rw [Bmm.isMapped, Bmm.isMapped, hsame]

end Outside

section Grant

variable {src dst dst' : PageTable} {ph ph' : Phys} {vaddr paddr n : ℕ} {p : List Index}
  {i : Index} {flags : BitVec 16} {r : Except Bmm.MapError Unit}

/-- The two ends of `bmm::unmap`. -/
theorem bmm_unmap_cases (pt : PageTable) (ph : Phys) (vaddr : ℕ) :
    (Bmm.isMapped pt ph vaddr = false ∧ Bmm.unmap pt ph vaddr = some (.error .notMapped, ph)) ∨
      ∃ p n i, indexes (vaddr / 4096) = p ++ [i] ∧ p.length = 3 ∧
        reach Pte.child ph.page pt.rootPpn p = some n ∧ Pte.isValid (ph.page n i) = true ∧
        Bmm.isMapped pt ph vaddr = true ∧
        Bmm.unmap pt ph vaddr = some (.ok (Pte.ppn (ph.page n i) * 4096), ph.set n i 0) := by
  cases hf : pt.findPte ph (vaddr / 4096) with
  | none =>
    refine Or.inl ⟨?_, ?_⟩
    · simp only [Bmm.isMapped, PageTable.translateVpnToPte, hf, Option.map_none, Option.any_none]
    · simp only [Bmm.unmap, PageTable.translateVpnToPte, hf, Option.map_none]
  | some r =>
    obtain ⟨n, i⟩ := r
    obtain ⟨p, hp, hl, hr⟩ := findPte_spec hf
    cases hv : Pte.isValid (ph.page n i) with
    | false =>
      refine Or.inl ⟨?_, ?_⟩
      · simp only [Bmm.isMapped, PageTable.translateVpnToPte, hf, Option.map_some,
          Option.any_some, hv]
      · simp only [Bmm.unmap, PageTable.translateVpnToPte, hf, Option.map_some, hv,
          Bool.not_false, if_true]
    | true =>
      refine Or.inr ⟨p, n, i, hp, hl, hr, hv, ?_, ?_⟩
      · simp only [Bmm.isMapped, PageTable.translateVpnToPte, hf, Option.map_some,
          Option.any_some, hv]
      · simp only [Bmm.unmap, PageTable.translateVpnToPte, PageTable.unmap, hf, Option.map_some,
          hv, Bool.not_true, Bool.false_eq_true, if_false, if_true]

/-- The page that is unmapped. -/
theorem Apart.leaf_sender (h : Apart src dst ph) (hl : p.length = 3)
    (hr : reach Pte.child ph.page src.rootPpn p = some n)
    (hv : Pte.isValid (ph.page n i) = true) :
    leaf ph src.rootPpn (p ++ [i]) = some (3, ph.page n i) := by
  rw [leaf_last hr hl, h.word p n i hl hr hv, if_pos rfl]

/-- The leaves of the sender after its page was unmapped. -/
theorem Apart.leaf_unmapped (h : Apart src dst ph) (hl : p.length = 3)
    (hr : reach Pte.child ph.page src.rootPpn p = some n) {q : List Index} (hq : q.length = 4) :
    leaf (ph.set n i 0) src.rootPpn q =
      if q = p ++ [i] then none else leaf ph src.rootPpn q := by
  rw [leaf_set h.sender hr hl hq]
  rfl

/-- Mapping a page of the receiver does not show in the leaves of the sender. -/
theorem Apart.leaf_mapped {vpn ppn : ℕ} {fl : PTEFlags} {w : Word} (h : Apart src dst ph)
    (hl : p.length = 3) (hr : reach Pte.child ph.page src.rootPpn p = some n)
    (hm : dst.map (ph.set n i w) vpn ppn fl = some (dst', ph')) {q : List Index}
    (hq : q.length = 4) : leaf ph' src.rootPpn q = leaf (ph.set n i w) src.rootPpn q := by
  have ho : Outside dst ph n := h.outside p n (by omega) hr
  have hsame : ∀ q m, q.length ≤ 3 →
      reach Pte.child (ph.set n i w).page src.rootPpn q = some m →
      ph'.page m = (ph.set n i w).page m := by
    intro q m hq hm'
    have hm'' : reach Pte.child ph.page src.rootPpn q = some m := by
      rw [← hm']
      exact (Radix.reach_write_leaf h.sender.tree hr hl hq).symm
    exact ((ho.set (h.outside q m hq hm'')).map (ho.wf_set h.receiver) hm).2
  rw [leaf, leaf, Radix.stop_congr_nodes hsame (by omega)]

/-- A page beside another one, in the same 2 MiB region. -/
theorem exists_neighbour (path : List Index) (hpath : path.length = 4) :
    ∃ q, q.length = 4 ∧ q ≠ path ∧ path.take 3 <+: q := by
  obtain ⟨a, b, c, d, rfl⟩ := List.length_eq_four.mp hpath
  refine ⟨[a, b, c, d + 1], rfl, ?_, ⟨[d + 1], rfl⟩⟩
  simp only [ne_eq, List.cons.injEq, true_and, and_true, Fin.ext_iff]
  omega

/-- A block that `map` replaces had the translations of its other pages. -/
theorem others_of_block {path b : List Index} (hb : blockMet ph dst.rootPpn path = some b)
    (hpath : path.length = 4)
    (hleaf : ∀ q, q.length = 4 → q ≠ path → b <+: q → leaf ph' dst.rootPpn q = none) :
    ∃ q, q.length = 4 ∧ q ≠ path ∧ leaf ph' dst.rootPpn q ≠ leaf ph dst.rootPpn q := by
  obtain ⟨q, hq, hne, hpre⟩ := exists_neighbour path hpath
  obtain ⟨l, w, hlw, hlt, rfl⟩ := blockMet_eq_some hb
  have hbq : path.take (l + 1) <+: q :=
    (List.take_prefix_take_left (by omega)).trans hpre
  refine ⟨q, hq, hne, ?_⟩
  rw [hleaf q hq hne hbq, leaf_of_blockMet hb hpath hq hbq, hlw]
  exact fun h => nomatch h

/-- What `bmm::grant` comes to once the sender's page is unmapped. -/
theorem grant_of_unmapped (hun : Bmm.unmap src ph vaddr = some (.ok paddr, ph.set n i 0))
    (ho : Outside dst ph n) (hg : Bmm.grant src dst ph vaddr flags = some (r, dst', ph')) :
    (Bmm.isMapped dst ph vaddr = true ∧ r = .error .alreadyMapped ∧ ph' = ph.set n i 0) ∨
      (Bmm.isMapped dst ph vaddr = false ∧ r = .ok () ∧
        dst.map (ph.set n i 0) (vaddr / 4096) (paddr / 4096) (Bmm.toPteFlags flags) =
          some (dst', ph')) := by
  simp only [Bmm.grant, hun, Bmm.map, ho.isMapped_set] at hg
  split at hg
  case isTrue hm =>
    cases hg
    exact Or.inl ⟨hm, rfl, rfl⟩
  case isFalse hm =>
    obtain ⟨⟨dst₁, ph₁⟩, hmap, heq⟩ := Option.map_eq_some_iff.mp hg
    cases heq
    exact Or.inr ⟨Bool.not_eq_true _ ▸ hm, rfl, hmap⟩

/-- **A grant that returns is atomic just when it fits**: the sender has no page to lose, or the
receiver has room for it. -/
theorem grantAtomic_iff (h : Apart src dst ph)
    (hg : Bmm.grant src dst ph vaddr flags = some (r, dst', ph')) :
    GrantAtomic src dst ph ph' vaddr flags r ↔ GrantFits src dst ph vaddr := by
  rcases bmm_unmap_cases src ph vaddr with ⟨hnot, hun⟩ | ⟨p, n, i, hp, hl, hr, hv, hmapped, hun⟩
  · simp only [Bmm.grant, hun] at hg
    cases hg
    exact iff_of_true (fun q _ => ⟨rfl, rfl⟩) fun hyes => absurd hyes (by rw [hnot]; decide)
  have ho : Outside dst ph n := h.outside p n (by omega) hr
  have hpath : (indexes (vaddr / 4096)).length = 4 := rfl
  have hhad : leaf ph src.rootPpn (indexes (vaddr / 4096)) = some (3, ph.page n i) := by
    rw [hp, h.leaf_sender hl hr hv]
  rcases grant_of_unmapped hun ho hg with ⟨hdst, rfl, rfl⟩ | ⟨hdst, rfl, hmap⟩
  · -- the page is gone and nobody has it
    refine iff_of_false (fun hatomic => ?_) fun hfits => ?_
    · have := (hatomic _ hpath).1
      rw [hhad, h.leaf_unmapped hl hr hpath, if_pos hp] at this
      cases this
    · rw [(hfits hmapped).1] at hdst
      cases hdst
  obtain ⟨-, -, hleaf⟩ := map_leaf (ho.wf_set h.receiver) hmap
  rw [Nat.mul_div_cancel _ (by decide : 0 < 4096)] at hleaf
  have hsrc : ∀ q, q.length = 4 → leaf ph' src.rootPpn q =
      if q = indexes (vaddr / 4096) then none else leaf ph src.rootPpn q := by
    intro q hq
    rw [h.leaf_mapped hl hr hmap hq, h.leaf_unmapped hl hr hq, hp]
  have hblock : blockMet (ph.set n i 0) dst.rootPpn (indexes (vaddr / 4096)) =
      blockMet ph dst.rootPpn (indexes (vaddr / 4096)) := by
    rw [blockMet, blockMet, ho.leaf_set hpath]
  rw [hblock] at hleaf
  have hfits : GrantFits src dst ph vaddr ↔
      blockMet ph dst.rootPpn (indexes (vaddr / 4096)) = none :=
    ⟨fun h => (h hmapped).2, fun h _ => ⟨hdst, h⟩⟩
  rw [hfits]
  constructor
  · rintro ⟨w, hgranted⟩
    by_contra hb
    obtain ⟨b, hb⟩ := Option.ne_none_iff_exists'.mp hb
    obtain ⟨q, hq, hne, hdiff⟩ := @others_of_block dst ph ph' _ b hb hpath fun q hq hne hbq => by
      rw [hleaf q hq, if_neg hne, if_pos ⟨b, hb, hbq⟩]
    exact hdiff (hgranted.others q hq hne).2
  · intro hb
    refine ⟨ph.page n i, hhad, ?_, ?_, fun q hq hne => ⟨?_, ?_⟩⟩
    · rw [hsrc _ hpath, if_pos rfl]
    · rw [hleaf _ hpath, if_pos rfl]
    · rw [hsrc q hq, if_neg hne]
    · rw [hleaf q hq, if_neg hne, if_neg, ho.leaf_set hq]
      rintro ⟨b, hb', -⟩
      rw [hb] at hb'
      cases hb'

end Grant

/-! ## Two small address spaces -/

/-- Two address spaces of four tables each, from frames 0x50000 and 0x50004 on.  The first has a
page at address 0, and the second has the word `w` there. -/
def twoSpaces (w : Word) : Phys where
  page n i :=
    if i = 0 then
      if n = 0x50003 then Pte.new 0x5000b ⟨0x17⟩
      else if n = 0x50007 then w
      else if 0x50000 ≤ n ∧ n < 0x50007 then Pte.newTable (n + 1)
      else 0
    else 0
  free := []
  trackBase := 0x50000
  track := fun _ => true
  taken := []
  given := []

section TwoSpaces

variable {w : Word} {base n : ℕ} {p : List Index}

theorem twoSpaces_ok : (twoSpaces w).Ok :=
  ⟨List.nodup_nil, fun _ hf => absurd hf List.not_mem_nil, show 0x50000 < 0x5ff00 by decide,
    fun _ _ => iff_of_false Bool.noConfusion List.not_mem_nil⟩

theorem twoSpaces_live (hlo : 0x50000 ≤ n) (hhi : n < 0x50008) : (twoSpaces w).Live n := by
  refine ⟨Phys.tracked_iff.mpr ⟨(by decide : 0x50000 ≠ 0), hlo, ?_⟩, List.not_mem_nil⟩
  show n - 0x50000 < 2048 * 64
  omega

/-- Each table leads to the next one. -/
theorem reach_twoSpaces (hbase : base = 0x50000 ∨ base = 0x50004) (hp : p.length ≤ 3)
    (hr : reach Pte.child (twoSpaces w).page base p = some n) :
    p = List.replicate p.length 0 ∧ n = base + p.length := by
  induction p using List.reverseRecOn generalizing n with
  | nil =>
    cases hr
    exact ⟨rfl, rfl⟩
  | append_singleton p i ih =>
    rw [List.length_append, List.length_singleton] at hp ⊢
    rw [Radix.reach_concat] at hr
    obtain ⟨m, hm, hc⟩ := Option.bind_eq_some_iff.mp hr
    obtain ⟨hzero, rfl⟩ := ih (by omega) hm
    have hi : i = 0 := by
      by_contra hi
      simp only [twoSpaces, if_neg hi] at hc
      cases Pte.child_zero.symm.trans hc
    subst hi
    simp only [twoSpaces, if_true, if_neg (show ¬ base + p.length = 0x50003 by omega),
      if_neg (show ¬ base + p.length = 0x50007 by omega),
      if_pos (show 0x50000 ≤ base + p.length ∧ base + p.length < 0x50007 by omega),
      Pte.child_newTable (show base + p.length + 1 < 2 ^ 36 by omega), Option.some.injEq] at hc
    refine ⟨?_, by omega⟩
    rw [List.replicate_succ', ← hzero]

theorem twoSpaces_wf (hbase : base = 0x50000 ∨ base = 0x50004) : (view base).Wf (twoSpaces w) := by
  refine ⟨twoSpaces_ok, fun p q n hp hq hpn hqn => ?_, fun p n hp hpn => ?_,
    (fun t ht => nomatch ht), (fun t ht => nomatch ht)⟩
  · obtain ⟨hzero, hn⟩ := reach_twoSpaces hbase hp hpn
    obtain ⟨hzero', hn'⟩ := reach_twoSpaces hbase hq hqn
    rw [hzero, hzero', show p.length = q.length by omega]
  · obtain ⟨-, hn⟩ := reach_twoSpaces hbase hp hpn
    exact twoSpaces_live (by omega) (by omega)

theorem twoSpaces_apart (w : Word) : Apart (view 0x50000) (view 0x50004) (twoSpaces w) := by
  refine ⟨twoSpaces_wf (Or.inl rfl), twoSpaces_wf (Or.inr rfl), fun p n hp hpn => ?_,
    fun p n i hp hpn hv => ?_⟩
  · obtain ⟨-, hn⟩ := reach_twoSpaces (Or.inl rfl) hp hpn
    refine ⟨twoSpaces_live (by omega) (by omega), (fun h => nomatch h), fun q hq hqn => ?_⟩
    obtain ⟨-, hn'⟩ := reach_twoSpaces (Or.inr rfl) hq hqn
    omega
  · obtain ⟨-, hn⟩ := reach_twoSpaces (Or.inl rfl) hp.le hpn
    obtain rfl : n = 0x50003 := by omega
    by_cases hi : i = 0
    · simp only [twoSpaces, if_pos hi, if_true]
      exact isLeaf_new
    · simp only [twoSpaces, if_neg hi] at hv
      exact absurd hv (by decide)

/-- A page moves to the receiver. -/
theorem grantAtomic_iff_granted : ∃ ph',
    Bmm.grant (view 0x50000) (view 0x50004) (twoSpaces 0) 0 0x16 =
        some (.ok (), view 0x50004, ph') ∧
      (GrantAtomic (view 0x50000) (view 0x50004) (twoSpaces 0) ph' 0 0x16 (.ok ()) ↔
        GrantFits (view 0x50000) (view 0x50004) (twoSpaces 0) 0) := by
  have hg : Bmm.grant (view 0x50000) (view 0x50004) (twoSpaces 0) 0 0x16 =
      some (.ok (), view 0x50004, ((twoSpaces 0).set 0x50003 0 0).set 0x50007 0
        (Pte.new 0x5000b ⟨0xd7⟩)) := by rfl
  exact ⟨_, hg, grantAtomic_iff (twoSpaces_apart 0) hg⟩

/-- **The receiver has a page there already: the sender's page is unmapped, and the grant
fails.** -/
theorem refused_grant_loses_page :
    ∃ ph', Apart (view 0x50000) (view 0x50004) (twoSpaces (Pte.new 0x5000f ⟨0x17⟩)) ∧
      Bmm.grant (view 0x50000) (view 0x50004) (twoSpaces (Pte.new 0x5000f ⟨0x17⟩)) 0 0x16 =
        some (.error .alreadyMapped, view 0x50004, ph') ∧
      translate (twoSpaces (Pte.new 0x5000f ⟨0x17⟩)) 0x50000 0 =
        some ⟨0x5000b000, Pte.new 0x5000b ⟨0x17⟩⟩ ∧
      translate ph' 0x50000 0 = none ∧
      ¬ GrantAtomic (view 0x50000) (view 0x50004) (twoSpaces (Pte.new 0x5000f ⟨0x17⟩)) ph' 0 0x16
        (.error .alreadyMapped) := by
  have hbefore : translate (twoSpaces (Pte.new 0x5000f ⟨0x17⟩)) 0x50000 0 =
      some ⟨0x5000b000, Pte.new 0x5000b ⟨0x17⟩⟩ := by decide
  have hafter : translate ((twoSpaces (Pte.new 0x5000f ⟨0x17⟩)).set 0x50003 0 0) 0x50000 0 =
      none := by decide
  refine ⟨(twoSpaces (Pte.new 0x5000f ⟨0x17⟩)).set 0x50003 0 0, twoSpaces_apart _, by rfl,
    hbefore, hafter, fun hatomic => ?_⟩
  have hsame := translate_eq (hatomic (indexes (0 / 4096)) rfl).1
  cases hbefore.symm.trans (hsame.symm.trans hafter)

end TwoSpaces

end QuackOS.Mm
