import QuackOS.Mm.Lookup
import QuackOS.Mm.Shortage

/-!
# Mapping a range

`map_range_continuous` keeps the table of the last level at hand and looks it up anew only where
the index of the page wraps.

* `findPteArrayMut`, `mapRangeContinuous` — the functions of `page_table.rs`;
* `mapRange_eq_pages` — **a range that is not empty is mapped as its pages are, one by one**: the
  same tables, the same frames, and the same panics;
* `bulkExact_iff` — an empty range still walks to its start, and so the translations agree just
  when the range has a page or there is no block in that place.
-/

namespace QuackOS.Mm

open Radix (reach)

namespace PageTable

/-- The loop of `find_pte_array_mut`. -/
def descendTables : List Index → ℕ → PageTable → Phys → Option (Option ℕ × PageTable × Phys)
  | [], ppn, pt, ph => some (some ppn, pt, ph)
  | idx :: rest, ppn, pt, ph =>
    match nextTable pt ph ppn idx with
    | some (some ppn, pt, ph) => descendTables rest ppn pt ph
    | some (none, pt, ph) => some (none, pt, ph)
    | none => none

/-- `find_pte_array_mut`: the table of the last level that covers `vpn`. -/
def findPteArrayMut (pt : PageTable) (ph : Phys) (vpn : ℕ) :
    Option (Option ℕ × PageTable × Phys) :=
  descendTables ((indexes vpn).take 3) pt.rootPpn pt ph

/-- The loop of `map_range_continuous`; `arr` is the table at hand. -/
def mapRangeLoop (endVpn : ℕ) (flags : PTEFlags) (arr vpn ppn : ℕ) (pt : PageTable) (ph : Phys) :
    Option (PageTable × Phys) :=
  if vpn < endVpn then
    let idx : Index := Fin.ofNat 512 vpn
    let ph := ph.set arr idx (Pte.new ppn flags)
    if 511 ≤ idx.val ∧ vpn + 1 < endVpn then
      match findPteArrayMut pt ph (vpn + 1) with
      | some (some arr, pt, ph) => mapRangeLoop endVpn flags arr (vpn + 1) (ppn + 1) pt ph
      | _ => none
    else mapRangeLoop endVpn flags arr (vpn + 1) (ppn + 1) pt ph
  else some (pt, ph)
termination_by endVpn - vpn

/-- `map_range_continuous`; it panics when the range is none, and when a table cannot be
allocated. -/
def mapRangeContinuous (pt : PageTable) (ph : Phys) (startVpn endVpn startPpn : ℕ)
    (flags : PTEFlags) : Option (PageTable × Phys) :=
  if startVpn ≤ endVpn then
    match findPteArrayMut pt ph startVpn with
    | some (some arr, pt, ph) => mapRangeLoop endVpn flags arr startVpn startPpn pt ph
    | _ => none
  else none

end PageTable

/-- The calls of `map` for `k` pages from `vpn` on, to the frames from `ppn` on. -/
def pageCalls (vpn ppn : ℕ) (flags : PTEFlags) (k : ℕ) : List TableOp :=
  (List.range k).map fun i => .map (vpn + i) (ppn + i) flags

/-- The range is mapped as its pages would be one by one: every address has the same translation
and the same attributes afterwards. -/
def BulkExact (pt : PageTable) (ph : Phys) (startVpn endVpn startPpn : ℕ) (flags : PTEFlags) :
    Prop :=
  ∃ r r', pt.mapRangeContinuous ph startVpn endVpn startPpn flags = some r ∧
    runTable (pt, ph) (pageCalls startVpn startPpn flags (endVpn - startVpn)) = some r' ∧
      ∀ va, translate r.2 r.1.rootPpn va = translate r'.2 r'.1.rootPpn va

section Walk

variable {pt pt' : PageTable} {ph ph' : Phys} {p : List Index} {n m arr vpn ppn : ℕ} {i : Index}
  {fl : PTEFlags}

/-- `find_pte_create` is `find_pte_array_mut` and an index. -/
theorem descend_concat : PageTable.descend (p ++ [i]) n pt ph =
    (PageTable.descendTables p n pt ph).map fun r => (r.1.map (·, i), r.2) := by
  induction p generalizing n pt ph with
  | nil => rfl
  | cons j p ih =>
    obtain ⟨k, r, hk⟩ : ∃ k r, p ++ [i] = k :: r := List.exists_cons_of_length_pos (by simp)
    rw [List.cons_append, hk, PageTable.descend, PageTable.descendTables, ← hk]
    cases pt.nextTable ph n j with
    | none => rfl
    | some s =>
      obtain ⟨m, pt₁, ph₁⟩ := s
      cases m with
      | none => rfl
      | some m => exact ih

theorem findPteCreate_eq (pt : PageTable) (ph : Phys) (vpn : ℕ) : pt.findPteCreate ph vpn =
    (pt.findPteArrayMut ph vpn).map fun r => (r.1.map (·, Fin.ofNat 512 vpn), r.2) := by
  unfold PageTable.findPteCreate PageTable.findPteArrayMut
  rw [← descend_concat, ← indexes_eq]

/-- `map` as a write into the table that `find_pte_array_mut` finds. -/
theorem map_eq_array (pt : PageTable) (ph : Phys) (vpn ppn : ℕ) (fl : PTEFlags) :
    pt.map ph vpn ppn fl =
      match pt.findPteArrayMut ph vpn with
      | some (some arr, pt, ph) => some (pt, ph.set arr (Fin.ofNat 512 vpn) (Pte.new ppn fl))
      | _ => none := by
  rw [PageTable.map, findPteCreate_eq]
  cases pt.findPteArrayMut ph vpn with
  | none => rfl
  | some r =>
    obtain ⟨arr, pt₁, ph₁⟩ := r
    cases arr <;> rfl

/-- What `find_pte_array_mut` does to a table. -/
theorem findPteArrayMut_spec (h : pt.Wf ph)
    (hf : pt.findPteArrayMut ph vpn = some (some arr, pt', ph')) :
    Grown pt ph (indexes vpn) pt' ph' ∧
      reach Pte.child ph'.page pt'.rootPpn ((indexes vpn).take 3) = some arr := by
  have hd : pt.findPteCreate ph vpn = some (some (arr, Fin.ofNat 512 vpn), pt', ph') := by
    rw [findPteCreate_eq, hf]
    rfl
  obtain ⟨hg, p, hp, hr⟩ := findPteCreate_spec h hd
  rw [indexes_eq] at hp
  obtain ⟨hp, -⟩ := List.append_inj' hp rfl
  exact ⟨hg, by rw [hp, hg.root, hr]⟩

/-- Where the tables are there, the walk only goes through them. -/
theorem descendTables_of_reach (hr : reach Pte.child ph.page n p = some m) :
    PageTable.descendTables p n pt ph = some (some m, pt, ph) := by
  induction p generalizing n with
  | nil =>
    cases hr
    rfl
  | cons j p ih =>
    obtain ⟨k, hc, hr⟩ := Option.bind_eq_some_iff.mp hr
    rw [PageTable.descendTables, nextTable_of_child hc]
    exact ih hr

theorem map_of_reach (hr : reach Pte.child ph.page pt.rootPpn ((indexes vpn).take 3) = some arr) :
    pt.map ph vpn ppn fl = some (pt, ph.set arr (Fin.ofNat 512 vpn) (Pte.new ppn fl)) := by
  rw [map_eq_array, PageTable.findPteArrayMut, descendTables_of_reach hr]

/-- A page can be mapped after its table was looked up. -/
theorem map_after_walk (h : pt.Wf ph)
    (hf : pt.findPteArrayMut ph vpn = some (some arr, pt', ph')) :
    pt'.map ph' vpn ppn fl = pt.map ph vpn ppn fl := by
  rw [map_of_reach (findPteArrayMut_spec h hf).2, map_eq_array, hf]

end Walk

/-! ## The loop -/

section Loop

variable {pt pt' : PageTable} {ph ph' : Phys} {arr vpn ppn startVpn endVpn k : ℕ} {fl : PTEFlags}

theorem pageCalls_succ (vpn ppn : ℕ) (fl : PTEFlags) (k : ℕ) :
    pageCalls vpn ppn fl (k + 1) = .map vpn ppn fl :: pageCalls (vpn + 1) (ppn + 1) fl k := by
  rw [pageCalls, List.range_succ_eq_map, List.map_cons, List.map_map, pageCalls]
  refine congrArg _ (List.map_congr_left fun i _ => ?_)
  simp only [Function.comp_apply, Nat.succ_eq_add_one, Nat.add_assoc, Nat.add_comm 1]

theorem runTable_pageCalls_succ : runTable (pt, ph) (pageCalls vpn ppn fl (k + 1)) =
    (pt.map ph vpn ppn fl).bind fun s => runTable s (pageCalls (vpn + 1) (ppn + 1) fl k) := by
  rw [pageCalls_succ, runTable, List.foldlM_cons]
  rfl

/-- Looking up the table of the first page beforehand makes no difference. -/
theorem runTable_after_walk (h : pt.Wf ph) (hk : 0 < k) :
    runTable (pt, ph) (pageCalls vpn ppn fl k) =
      match pt.findPteArrayMut ph vpn with
      | some (some _, pt, ph) => runTable (pt, ph) (pageCalls vpn ppn fl k)
      | _ => none := by
  obtain ⟨k, rfl⟩ := Nat.exists_eq_succ_of_ne_zero hk.ne'
  split
  case h_1 arr pt₁ ph₁ hf =>
    rw [runTable_pageCalls_succ, runTable_pageCalls_succ, map_after_walk h hf]
  case h_2 hnone =>
    rw [runTable_pageCalls_succ, map_eq_array]
    split
    case h_1 arr pt₁ ph₁ hf => exact absurd hf (hnone arr pt₁ ph₁)
    case h_2 => rfl

theorem region_succ (hlt : vpn % 512 < 511) : region (vpn + 1) = region vpn := by
  unfold region
  omega

/-- **The loop maps what is left of the range page by page**, as long as the table at hand is that
of the next page. -/
theorem mapRangeLoop_eq (h : pt.Wf ph) (hend : vpn + k = endVpn)
    (hr : 0 < k → reach Pte.child ph.page pt.rootPpn ((indexes vpn).take 3) = some arr) :
    PageTable.mapRangeLoop endVpn fl arr vpn ppn pt ph =
      runTable (pt, ph) (pageCalls vpn ppn fl k) := by
  induction k generalizing arr vpn ppn pt ph with
  | zero =>
    rw [PageTable.mapRangeLoop, if_neg (by omega)]
    rfl
  | succ k ih =>
    have hreach := hr k.succ_pos
    have hwf : pt.Wf (ph.set arr (Fin.ofNat 512 vpn) (Pte.new ppn fl)) := wf_set_leaf h hreach rfl
    rw [PageTable.mapRangeLoop, if_pos (by omega), runTable_pageCalls_succ, map_of_reach hreach,
      Option.bind_some]
    dsimp only
    split
    case isTrue hwrap =>
      -- the next page is in another table
      rw [runTable_after_walk hwf (by omega)]
      split
      case h_1 arr₁ pt₁ ph₁ hf =>
        obtain ⟨hg, hreach₁⟩ := findPteArrayMut_spec hwf hf
        exact ih hg.wf (by omega) fun _ => hreach₁
      case h_2 => rfl
    case isFalse hsame =>
      refine ih hwf (by omega) fun hk => ?_
      have hlt : vpn % 512 < 511 := by
        simp only [Fin.val_ofNat, not_and_or] at hsame
        omega
      rw [take_indexes_iff.mpr (region_succ hlt)]
      exact (Radix.reach_write_leaf h.tree hreach rfl (by simp)).trans hreach

/-- **Mapping a range that is not empty is mapping its pages one by one.** -/
theorem mapRange_eq_pages (h : pt.Wf ph) (hlt : startVpn < endVpn) :
    pt.mapRangeContinuous ph startVpn endVpn ppn fl =
      runTable (pt, ph) (pageCalls startVpn ppn fl (endVpn - startVpn)) := by
  rw [PageTable.mapRangeContinuous, if_pos hlt.le, runTable_after_walk h (by omega)]
  split
  case h_1 arr pt₁ ph₁ hf =>
    obtain ⟨hg, hreach⟩ := findPteArrayMut_spec h hf
    exact mapRangeLoop_eq hg.wf (by omega) fun _ => hreach
  case h_2 => rfl

/-- An empty range still has its start looked up. -/
theorem mapRange_empty : pt.mapRangeContinuous ph vpn vpn ppn fl =
    match pt.findPteArrayMut ph vpn with
    | some (some _, pt, ph) => some (pt, ph)
    | _ => none := by
  rw [PageTable.mapRangeContinuous, if_pos (Nat.le_refl vpn)]
  split
  case h_1 arr pt₁ ph₁ hf => rw [PageTable.mapRangeLoop, if_neg (Nat.lt_irrefl vpn)]
  case h_2 => rfl

end Loop

/-! ## Enough frames -/

section Enough

variable {pt pt' : PageTable} {ph ph' : Phys} {f n vpn ppn startVpn endVpn k : ℕ} {p : List Index}
  {i : Index} {fl : PTEFlags}

/-- Writing a frame down takes two more at most. -/
theorem trackFrame_returns (hok : ph.Ok) (hlen : 2 ≤ ph.free.length) :
    ∃ pt' ph', pt.trackFrame ph f = some (pt', ph') ∧
      ph.free.length ≤ ph'.free.length + 2 := by
  cases hv : pt.ownsRoot with
  | false => exact ⟨pt, ph, trackFrame_of_view hv, Nat.le_add_right _ 2⟩
  | true =>
    have hfirst : ∃ tp pt₁ ph₁, pt.firstTracker ph = some (tp, pt₁, ph₁) ∧ ph₁.Ok ∧
        ph.free.length ≤ ph₁.free.length + 1 := by
      cases ht : pt.trackerHead with
      | some tp =>
        exact ⟨tp, pt, ph, by rw [PageTable.firstTracker, ht], hok, Nat.le_add_right _ 1⟩
      | none =>
        rcases allocPage_cases hok with ⟨hnil, -⟩ | ⟨g, rest, hfree, ha⟩
        · rw [hnil] at hlen
          cases hlen
        · refine ⟨g, { pt with trackerHead := some g },
            ((ph.pop g rest).set g countIx 0).set g nextTagIx 0, ?_, (hok.pop hfree).set.set, ?_⟩
          · rw [PageTable.firstTracker, ht]
            simp only [ha]
          · rw [hfree]
            exact Nat.le_refl _
    obtain ⟨tp, pt₁, ph₁, hfirst, hok₁, hle⟩ := hfirst
    unfold PageTable.trackFrame
    rw [if_pos hv, hfirst]
    dsimp only
    split
    case isTrue =>
      refine ⟨_, _, rfl, ?_⟩
      simp only [Phys.set_free]
      omega
    case isFalse =>
      rcases allocPage_cases hok₁ with ⟨hnil, -⟩ | ⟨g, rest, hfree, ha⟩
      · rw [hnil, List.length_nil] at hle
        omega
      · rw [ha]
        refine ⟨_, _, rfl, ?_⟩
        rw [hfree, List.length_cons] at hle
        show _ ≤ rest.length + 2
        omega

/-- A level of the walk takes three. -/
theorem nextTable_returns (hok : ph.Ok) (hlive : ∀ t, pt.trackerHead = some t → ph.Live t)
    (hlen : 3 ≤ ph.free.length) :
    ∃ m pt' ph', pt.nextTable ph n i = some (some m, pt', ph') ∧ ph'.Ok ∧
      (∀ t, pt'.trackerHead = some t → ph'.Live t) ∧ ph.free.length ≤ ph'.free.length + 3 := by
  cases hc : Pte.child (ph.page n i) with
  | some m => exact ⟨m, pt, ph, nextTable_of_child hc, hok, hlive, Nat.le_add_right _ 3⟩
  | none =>
    rcases allocPage_cases hok with ⟨hnil, -⟩ | ⟨f, rest, hfree, ha⟩
    · rw [hnil] at hlen
      cases hlen
    · rw [hfree, List.length_cons] at hlen ⊢
      have hext : ph.Extends (hung ph f rest n i) := (Phys.Extends.pop hfree).set
      have hlive' : ∀ t, pt.trackerHead = some t → (hung ph f rest n i).Live t :=
        fun t ht => hext.live (hlive t ht)
      obtain ⟨pt', ph', ht, hle⟩ := @trackFrame_returns pt (hung ph f rest n i) f (hext.ok hok)
        (by show 2 ≤ rest.length; omega)
      have hspec := trackFrame_spec (hext.ok hok) hlive' ht
      refine ⟨Pte.ppn (Pte.newTable f), pt', ph', ?_, hspec.ext.ok (hext.ok hok),
        fun t htt => ?_, ?_⟩
      · rw [PageTable.nextTable, if_pos (Pte.not_table_iff.mpr hc), ha]
        dsimp only
        rw [show (ph.pop f rest).set n i (Pte.newTable f) = hung ph f rest n i from rfl, ht]
        rfl
      · rcases hspec.tracker t htt with htt | ⟨-, hl⟩
        · exact hspec.ext.live (hlive' t htt)
        · exact hl
      · have : (hung ph f rest n i).free.length = rest.length := rfl
        omega

theorem descendTables_returns (hok : ph.Ok) (hlive : ∀ t, pt.trackerHead = some t → ph.Live t)
    (hlen : 3 * p.length ≤ ph.free.length) :
    ∃ m pt' ph', PageTable.descendTables p n pt ph = some (some m, pt', ph') ∧
      ph.free.length ≤ ph'.free.length + 3 * p.length := by
  induction p generalizing n pt ph with
  | nil => exact ⟨n, pt, ph, rfl, Nat.le_refl _⟩
  | cons i p ih =>
    rw [List.length_cons] at hlen ⊢
    obtain ⟨m, pt₁, ph₁, hn, hok₁, hlive₁, hle₁⟩ :=
      @nextTable_returns pt ph n i hok hlive (by omega)
    obtain ⟨m', pt', ph', hd, hle⟩ := @ih pt₁ ph₁ m hok₁ hlive₁ (by omega)
    refine ⟨m', pt', ph', ?_, by omega⟩
    rw [PageTable.descendTables, hn]
    exact hd

/-- A page takes nine. -/
theorem map_returns (h : pt.Wf ph) (hlen : 9 ≤ ph.free.length) :
    ∃ pt' ph', pt.map ph vpn ppn fl = some (pt', ph') ∧
      ph.free.length ≤ ph'.free.length + 9 := by
  have hthree : ((indexes vpn).take 3).length = 3 := rfl
  obtain ⟨arr, pt₁, ph₁, hd, hle⟩ := @descendTables_returns pt ph pt.rootPpn
    ((indexes vpn).take 3) h.ok h.tracker_live (by omega)
  refine ⟨pt₁, ph₁.set arr (Fin.ofNat 512 vpn) (Pte.new ppn fl), ?_, ?_⟩
  · rw [map_eq_array, PageTable.findPteArrayMut, hd]
  · rw [Phys.set_free]
    omega

theorem runTable_pageCalls_returns (h : pt.Wf ph) (hlen : 9 * k ≤ ph.free.length) :
    ∃ s, runTable (pt, ph) (pageCalls vpn ppn fl k) = some s := by
  induction k generalizing vpn ppn pt ph with
  | zero => exact ⟨(pt, ph), rfl⟩
  | succ k ih =>
    obtain ⟨pt₁, ph₁, hmap, hle⟩ := @map_returns pt ph vpn ppn fl h (by omega)
    rw [runTable_pageCalls_succ, hmap]
    exact ih (map_leaf h hmap).1 (by omega)

/-- Nothing but a lack of frames can stop the call. -/
theorem mapRange_returns (h : pt.Wf ph) (hle : startVpn ≤ endVpn)
    (hlen : 9 * (endVpn - startVpn + 1) ≤ ph.free.length) :
    (pt.mapRangeContinuous ph startVpn endVpn ppn fl).isSome := by
  rcases hle.lt_or_eq with hlt | rfl
  · obtain ⟨s, hs⟩ := @runTable_pageCalls_returns pt ph startVpn ppn (endVpn - startVpn) fl h
      (by omega)
    rw [mapRange_eq_pages h hlt, hs]
    rfl
  · obtain ⟨m, pt', ph', hd, -⟩ := @descendTables_returns pt ph pt.rootPpn
      ((indexes startVpn).take 3) h.ok h.tracker_live (by simp; omega)
    rw [mapRange_empty, PageTable.findPteArrayMut, hd]
    rfl

end Enough

/-! ## Translations -/

section Exact

variable {pt : PageTable} {ph : Phys} {vpn startVpn endVpn startPpn : ℕ} {flags : PTEFlags}

/-- The address of a page is translated just when its path has a leaf. -/
theorem translate_page_eq_none (root : ℕ) :
    translate ph root (vpn % 2 ^ 36 * 4096) = none ↔ leaf ph root (indexes vpn) = none := by
  have hix : indexes (vpn % 2 ^ 36 * 4096 / 4096) = indexes vpn := by
    rw [Nat.mul_div_cancel _ (by decide : 0 < 4096)]
    exact indexes_eq_iff.mpr (Nat.mod_mod _ _)
  rw [translate, if_pos (by omega), hix, Option.map_eq_none_iff]

/-- An empty range is exact just when its start is not in a block. -/
theorem bulkExact_empty_iff (h : pt.Wf ph)
    (hrun : (pt.mapRangeContinuous ph vpn vpn startPpn flags).isSome) :
    BulkExact pt ph vpn vpn startPpn flags ↔ blockMet ph pt.rootPpn (indexes vpn) = none := by
  rw [BulkExact]
  rw [mapRange_empty] at hrun ⊢
  split at hrun
  case h_2 => cases hrun
  case h_1 arr pt₁ ph₁ hf =>
  obtain ⟨hg, -⟩ := findPteArrayMut_spec h hf
  have hnone : runTable (pt, ph) (pageCalls vpn startPpn flags (vpn - vpn)) = some (pt, ph) := by
    rw [Nat.sub_self]
    rfl
  rw [hnone]
  constructor
  · rintro ⟨r, r', hr, hr', hsame⟩
    cases hr
    cases hr'
    by_contra hb
    obtain ⟨b, hb⟩ := Option.ne_none_iff_exists'.mp hb
    obtain ⟨l, w, hlw, -, rfl⟩ := blockMet_eq_some hb
    -- the walk took away the block that translated the first page
    have hgone : translate ph₁ pt.rootPpn (vpn % 2 ^ 36 * 4096) = none := by
      rw [translate_page_eq_none, hg.leaf _ rfl, if_pos ⟨_, hb, List.take_prefix _ _⟩]
    rw [← hg.root, hsame, translate_page_eq_none, hlw] at hgone
    cases hgone
  · intro hb
    refine ⟨_, _, rfl, rfl, fun va => ?_⟩
    rw [hg.root]
    apply translate_eq
    rw [hg.leaf _ rfl, if_neg]
    rintro ⟨b, hb', -⟩
    rw [hb] at hb'
    cases hb'

/-- **Mapping a range and mapping its pages**: with frames enough the call returns, and when it
returns all translations are those of the single calls, just when the range is not empty or its
start is in no block. -/
theorem bulkExact_iff (h : pt.Wf ph) (hle : startVpn ≤ endVpn) :
    (9 * (endVpn - startVpn + 1) ≤ ph.free.length →
      (pt.mapRangeContinuous ph startVpn endVpn startPpn flags).isSome) ∧
    ((pt.mapRangeContinuous ph startVpn endVpn startPpn flags).isSome →
      (BulkExact pt ph startVpn endVpn startPpn flags ↔
        startVpn < endVpn ∨ blockMet ph pt.rootPpn (indexes startVpn) = none)) := by
  refine ⟨mapRange_returns h hle, fun hrun => ?_⟩
  rcases hle.lt_or_eq with hlt | rfl
  · refine iff_of_true ?_ (Or.inl hlt)
    obtain ⟨r, hr⟩ := Option.isSome_iff_exists.mp hrun
    exact ⟨r, r, hr, by rw [← mapRange_eq_pages h hlt, hr], fun _ => rfl⟩
  · rw [bulkExact_empty_iff h hrun, or_iff_right (Nat.lt_irrefl _)]

/-- A machine with 32 free frames. -/
def thirtyTwoFrames : Phys where
  page := fun _ _ => 0#64
  free := List.range' 0x50000 32
  trackBase := 0x50000
  track := fun i => decide (32 ≤ i)
  taken := []
  given := []

theorem thirtyTwoFrames_ok : thirtyTwoFrames.Ok := by
  refine ⟨by decide, by decide, by decide, fun f hf => ?_⟩
  obtain ⟨-, hle, -⟩ := Phys.tracked_iff.mp hf
  simp only [thirtyTwoFrames, decide_eq_false_iff_not, List.mem_range'_1] at *
  omega

/-- Two pages in different tables. -/
theorem bulkExact_iff_border : ∃ pt ph,
    createKernelMappedPageTable thirtyTwoFrames = some (.ok pt, ph) ∧
      BulkExact pt ph 0x5ff 0x601 0x5f000 ⟨0x17⟩ := by
  obtain ⟨pt, ph, hc, hfree⟩ := exists_created thirtyTwoFrames 27 (by decide)
  obtain ⟨root, l1, tr, lo, mid, rest, hcr⟩ := create_spec thirtyTwoFrames_ok hc
  obtain ⟨hreturns, hexact⟩ := bulkExact_iff (hcr.wf thirtyTwoFrames_ok)
    (by omega : 0x5ff ≤ 0x601)
  exact ⟨pt, ph, hc, (hexact (hreturns hfree.ge)).mpr (Or.inl (by omega))⟩

/-- **An empty range in kernel memory**: the block there is gone, and no page was mapped. -/
theorem empty_range_takes_block : ∃ pt ph r,
    createKernelMappedPageTable sixteenFrames = some (.ok pt, ph) ∧
      pt.mapRangeContinuous ph 0x40000 0x40000 0x5f000 ⟨0x17⟩ = some r ∧
      runTable (pt, ph) (pageCalls 0x40000 0x5f000 ⟨0x17⟩ 0) = some (pt, ph) ∧
      translate ph pt.rootPpn 0x40000000 = some ⟨0x40000000, kernelBlock 0⟩ ∧
      translate r.2 r.1.rootPpn 0x40000000 = none ∧
      ¬ BulkExact pt ph 0x40000 0x40000 0x5f000 ⟨0x17⟩ := by
  have hsome : (createAndRun []).isSome = true := by decide
  obtain ⟨s, hs⟩ := Option.isSome_iff_exists.mp hsome
  obtain ⟨pt, ph, hc, -⟩ := createAndRun_eq_some hs
  obtain ⟨root, l1, tr, lo, mid, rest, hcr⟩ := create_spec sixteenFrames_ok hc
  have hwf : pt.Wf ph := hcr.wf sixteenFrames_ok
  have hlen : 9 * (0x40000 - 0x40000 + 1) ≤ ph.free.length := by
    have := congrArg List.length hcr.taken_from
    simp only [sixteenFrames, List.length_cons, List.length_nil] at this
    rw [hcr.free]
    omega
  obtain ⟨r, hr⟩ := Option.isSome_iff_exists.mp
    (@mapRange_returns pt ph 0x5f000 0x40000 0x40000 ⟨0x17⟩ hwf (Nat.le_refl _) hlen)
  have hid : Identity 0 (pt, ph) := ⟨hwf, fun x => hcr.leaf_identity sixteenFrames_ok 0 x⟩
  have hk : (Fin.ofNat 512 (0x40000000 / 2 ^ 21) : Index) = 0 := by decide
  have hbefore := @Identity.translate (pt, ph) 0x40000000 (by omega) (by omega)
    (by rw [hk]; exact hid)
  rw [hk] at hbefore
  have hpath : indexes 0x40000 = [0, 1, 0, 0] := by decide
  have hblock : blockMet ph pt.rootPpn (indexes 0x40000) = some [0, 1, 0] := by
    rw [hpath, blockMet, hid.2 0]
    rfl
  have hafter : translate r.2 r.1.rootPpn 0x40000000 = none := by
    rw [mapRange_empty] at hr
    split at hr
    case h_2 => cases hr
    case h_1 arr pt₁ ph₁ hf =>
    cases hr
    obtain ⟨hg, -⟩ := findPteArrayMut_spec hwf hf
    apply translate_none
    rw [hg.root, hg.leaf _ rfl, if_pos ⟨_, hblock, by decide⟩]
  refine ⟨pt, ph, r, hc, hr, rfl, hbefore, hafter, ?_⟩
  rintro ⟨r₁, r₂, hr₁, hr₂, hsame⟩
  cases hr.symm.trans hr₁
  cases hr₂
  rw [hsame, hbefore] at hafter
  cases hafter

end Exact

end QuackOS.Mm
