import QuackOS.Mm.Mapping

/-!
# Reading translations back

`find_pte` goes down the tables and returns the leaf's place, whatever word is there, and
`translate_va_to_pa` does not look whether the word is valid.

* `map_pte`, `remap_pte`, `unmap_pte` — the word of every page after one operation;
* `lastMapped` — what a sequence of calls says about a page;
* `translatesRight_iff` — a translation agrees with it unless the page is not mapped and some page
  of its 2 MiB region once was.
-/

namespace QuackOS.Mm

open Radix (reach)

/-! ## The functions -/

namespace PageTable

/-- `translate_va_to_pa`. -/
def translateVaToPa (pt : PageTable) (ph : Phys) (va : ℕ) : Option ℕ :=
  (pt.findPte ph (va / 4096)).map fun (n, i) => Pte.ppn (ph.page n i) * 4096 + va % 4096

/-- `translate_vpn_to_pte`. -/
def translateVpnToPte (pt : PageTable) (ph : Phys) (vpn : ℕ) : Option Word :=
  (pt.findPte ph vpn).map fun (n, i) => ph.page n i

end PageTable

namespace Bmm

/-- `bmm::translate`, in the address space with this table. -/
def translate (pt : PageTable) (ph : Phys) (vaddr : ℕ) : Option ℕ := pt.translateVaToPa ph vaddr

/-- `bmm::is_mapped`. -/
def isMapped (pt : PageTable) (ph : Phys) (vaddr : ℕ) : Bool :=
  (pt.translateVpnToPte ph (vaddr / 4096)).any Pte.isValid

end Bmm

section Pte

variable {pt pt' : PageTable} {ph ph' : Phys} {p path : List Index} {n vpn ppn : ℕ} {i : Index}
  {fl : PTEFlags}

theorem translateVaToPa_eq (pt : PageTable) (ph : Phys) (va : ℕ) :
    pt.translateVaToPa ph va =
      (pt.translateVpnToPte ph (va / 4096)).map fun w => Pte.ppn w * 4096 + va % 4096 := by
  rw [PageTable.translateVaToPa, PageTable.translateVpnToPte, Option.map_map]
  rfl

/-- The word of a page, by way of the table it is in. -/
theorem pte_eq (hp : indexes vpn = p ++ [i]) : pt.translateVpnToPte ph vpn =
    (reach Pte.child ph.page pt.rootPpn p).map fun n => ph.page n i := by
  rw [PageTable.translateVpnToPte, findPte_eq hp, Option.map_map]
  rfl

/-- A page's path is that of its 2 MiB region and the index of its word. -/
theorem indexes_eq (vpn : ℕ) :
    indexes vpn = (indexes vpn).take 3 ++ [Fin.ofNat 512 vpn] := rfl

/-- The number of a page's 2 MiB region. -/
def region (vpn : ℕ) : ℕ := vpn % 2 ^ 36 / 512

theorem take_indexes_iff {v : ℕ} :
    (indexes v).take 3 = (indexes vpn).take 3 ↔ region v = region vpn := by
  simp only [indexes, region, List.take_succ_cons, List.take_zero, List.cons.injEq, and_true,
    Fin.ext_iff, Fin.val_ofNat, Nat.shiftRight_eq_div_pow]
  omega

theorem indexes_eq_iff {v : ℕ} : indexes v = indexes vpn ↔ v % 2 ^ 36 = vpn % 2 ^ 36 := by
  refine ⟨indexes_inj, fun h => ?_⟩
  simp only [indexes, List.cons.injEq, and_true, Fin.ext_iff, Fin.val_ofNat,
    Nat.shiftRight_eq_div_pow]
  omega

/-- A word that is not a table ends all paths through it. -/
theorem reach_of_not_table {q : List Index} (hp : reach Pte.child ph.page pt.rootPpn p = some n)
    (hc : Pte.child (ph.page n i) = none) (hq : p ++ [i] <+: q) :
    reach Pte.child ph.page pt.rootPpn q = none := by
  obtain ⟨s, rfl⟩ := hq
  rw [Radix.reach_append, Radix.reach_concat, hp, Option.bind_some, hc, Option.bind_none]

/-- What `find_pte_create` does to the tables of the last level: those that are there stay as they
are, and at most the one on its path is new, and then empty. -/
theorem descend_last {r : List Index} {n' : ℕ} {i' : Index} (h : pt.Wf ph)
    (hp : reach Pte.child ph.page pt.rootPpn p = some n) (hpath : path = p ++ r)
    (hlen : path.length = 4) (hd : PageTable.descend r n pt ph = some (some (n', i'), pt', ph'))
    {q : List Index} {x : ℕ} (hq : q.length = 3)
    (hx : reach Pte.child ph'.page pt.rootPpn q = some x) :
    reach Pte.child ph.page pt.rootPpn q = some x ∧ ph'.page x = ph.page x ∨
      reach Pte.child ph.page pt.rootPpn q = none ∧ q <+: path ∧ ph'.page x = fun _ => 0#64 := by
  induction r generalizing p n pt ph with
  | nil => simp [PageTable.descend] at hd
  | cons i r ih =>
    cases r with
    | nil =>
      cases hd
      exact Or.inl ⟨hx, rfl⟩
    | cons j r =>
      have hlen' : p.length + r.length = 2 := by
        simp only [hpath, List.length_append, List.length_cons] at hlen
        omega
      simp only [PageTable.descend] at hd
      split at hd
      case h_2 => cases hd
      case h_3 => cases hd
      case h_1 m pt₁ ph₁ hn =>
        have hpath' : path = (p ++ [i]) ++ j :: r := by simp [hpath]
        rcases nextTable_spec h hp (by omega) hn with ⟨hc, rfl, rfl⟩ | ⟨hc, rest, hfree, ht, -⟩
        · refine ih h ?_ hpath' hd hx
          rw [Radix.reach_concat, hp, Option.bind_some, hc]
        · have hwf : pt.Wf (hung ph m rest n i) := wf_hung h hfree hp (by omega)
          have hreach : ∀ q, q.length ≤ 4 → reach Pte.child ph₁.page pt.rootPpn q =
              if p ++ [i] <+: q then (if q = p ++ [i] then some m else none)
              else reach Pte.child ph.page pt.rootPpn q := fun q hq => by
            rw [ht.reach_eq hwf hq, reach_hung h hfree hp (by omega) hq]
          have hp' : reach Pte.child ph₁.page pt₁.rootPpn (p ++ [i]) = some m := by
            have hl : (p ++ [i]).length ≤ 4 := by
              simp only [List.length_append, List.length_cons, List.length_nil]
              omega
            rw [ht.root, hreach _ hl, if_pos (by simp), if_pos rfl]
          have hpage : ∀ y, reach Pte.child (hung ph m rest n i).page pt.rootPpn q = some y →
              ph₁.page y = (hung ph m rest n i).page y := fun y hy =>
            ht.page y (hwf.node_live q y (by omega) hy)
              fun hcon => hwf.tracker_node y hcon q (by omega) hy
          have hmn : m ≠ n := ((h.node_live p n (by omega) hp).ne_head hfree).symm
          rw [← ht.root] at hx
          have hih := ih (ht.wf hwf) hp' hpath' hd hx
          rw [ht.root] at hih
          by_cases hpre : p ++ [i] <+: q
          · refine Or.inr ⟨reach_of_not_table hp hc hpre, ?_⟩
            rcases hih with ⟨hr, hsame⟩ | ⟨-, hpre', hzero⟩
            · rw [hsame, hpage x (by rw [← ht.reach_eq hwf (by omega)]; exact hr)]
              rw [hreach q (by omega), if_pos hpre] at hr
              split at hr
              · rename_i heq
                cases hr
                refine ⟨by rw [heq, hpath']; exact List.prefix_append _ _, ?_⟩
                rw [hung, Phys.set_page_of_ne hmn, Phys.pop_page_self]
              · cases hr
            · exact ⟨hpre', hzero⟩
          · rcases hih with ⟨hr, hsame⟩ | ⟨hr, hpre', hzero⟩
            · have hr₀ := hr
              rw [hreach q (by omega), if_neg hpre] at hr
              refine Or.inl ⟨hr, ?_⟩
              rw [hsame, hpage x (by rw [← ht.reach_eq hwf (by omega)]; exact hr₀)]
              -- the table is not the one that the new table was hung into
              have hxn : x ≠ n := by
                rintro rfl
                have := h.tree q p x (by omega) (by omega) hr hp
                rw [this] at hq
                omega
              rw [hung, Phys.set_page_of_ne hxn, pop_agrees h hfree q x (by omega) hr]
            · rw [hreach q (by omega), if_neg hpre] at hr
              exact Or.inr ⟨hr, hpre', hzero⟩

/-! ## What the operations do to the words -/

/-- The words after a write into the table of the last level on the path of a page. -/
theorem set_pte (h : pt.Wf ph) (hp : indexes vpn = p ++ [i])
    (hr : reach Pte.child ph.page pt.rootPpn p = some n) (w : Word) (v : ℕ) :
    pt.translateVpnToPte (ph.set n i w) v =
      if v % 2 ^ 36 = vpn % 2 ^ 36 then some w else pt.translateVpnToPte ph v := by
  have hl := length_of_indexes hp
  have hsame : reach Pte.child (ph.set n i w).page pt.rootPpn ((indexes v).take 3) =
      reach Pte.child ph.page pt.rootPpn ((indexes v).take 3) :=
    Radix.reach_write_leaf h.tree hr hl (by simp)
  rw [pte_eq (indexes_eq v), pte_eq (indexes_eq v), hsame]
  split
  case isTrue hv =>
    have hvp : (indexes v).take 3 ++ [Fin.ofNat 512 v] = p ++ [i] := by
      rw [← indexes_eq, indexes_eq_iff.mpr hv, hp]
    obtain ⟨htake, hlast⟩ := List.append_inj' hvp rfl
    cases hlast
    rw [htake, hr, Option.map_some, Phys.set_page_self, Function.update_self]
  case isFalse hv =>
    cases hm : reach Pte.child ph.page pt.rootPpn ((indexes v).take 3) with
    | none => rfl
    | some m =>
      rw [Option.map_some, Option.map_some, Phys.set_page_apply_of_ne]
      rintro ⟨rfl, hvi⟩
      have := h.tree _ _ m (by simp) (by omega) hm hr
      apply hv
      rw [← indexes_eq_iff, indexes_eq v, this, hvi, hp]

/-- **`map`** writes the page's word.  Its neighbours in the 2 MiB region have words from then on,
if only zeros. -/
theorem map_pte (h : pt.Wf ph) (hm : pt.map ph vpn ppn fl = some (pt', ph')) (v : ℕ) :
    pt'.translateVpnToPte ph' v =
      if v % 2 ^ 36 = vpn % 2 ^ 36 then some (Pte.new ppn fl)
      else if region v = region vpn then some ((pt.translateVpnToPte ph v).getD 0)
      else pt.translateVpnToPte ph v := by
  unfold PageTable.map at hm
  split at hm
  case h_2 => cases hm
  case h_1 n i pt₁ ph₁ hd =>
    cases hm
    obtain ⟨hg, p, hp, hr⟩ := findPteCreate_spec h hd
    have hr' : reach Pte.child ph₁.page pt'.rootPpn p = some n := by rw [hg.root, hr]
    have hlast := fun {q x} => descend_last (q := q) (x := x) h (p := []) rfl rfl rfl hd
    rw [set_pte hg.wf hp hr']
    refine if_congr Iff.rfl rfl ?_
    rw [pte_eq (indexes_eq v), pte_eq (indexes_eq v), hg.root]
    have htake : (indexes vpn).take 3 = p := by
      have hl := length_of_indexes hp
      rw [hp, List.take_append_of_le_length (by omega), List.take_of_length_le (by omega)]
    have hq : ((indexes v).take 3).length = 3 := rfl
    split
    case isTrue hv =>
      rw [take_indexes_iff.mpr hv, htake] at hq ⊢
      rw [hr, Option.map_some]
      rcases hlast hq hr with ⟨hold, hpage⟩ | ⟨hold, -, hzero⟩
      · rw [hold, Option.map_some, Option.getD_some, hpage]
      · rw [hold, Option.map_none, Option.getD_none, hzero]
        rfl
    case isFalse hv =>
      cases hnew : reach Pte.child ph₁.page pt.rootPpn ((indexes v).take 3) with
      | none =>
        cases hold : reach Pte.child ph.page pt.rootPpn ((indexes v).take 3) with
        | none => rfl
        | some m =>
          have hmono := hg.node_mono _ m hq.le hold
          rw [hnew] at hmono
          cases hmono
      | some m =>
        rcases hlast hq hnew with ⟨hold, hpage⟩ | ⟨-, hpre, -⟩
        · rw [hold, Option.map_some, Option.map_some, hpage]
        · exact absurd (take_indexes_iff.mp (List.prefix_iff_eq_take.mp hpre)) hv

/-- **`remap`** keeps the frame of the page's word. -/
theorem remap_pte (h : pt.Wf ph) (hm : pt.remap ph vpn fl = some ph') :
    ∃ w, pt.translateVpnToPte ph vpn = some w ∧ Pte.isValid w = true ∧
      ∀ v, pt.translateVpnToPte ph' v =
        if v % 2 ^ 36 = vpn % 2 ^ 36 then some (Pte.new (Pte.ppn w) fl)
        else pt.translateVpnToPte ph v := by
  obtain ⟨p, n, i, hp, -, hr, hvalid, rfl⟩ := remap_spec hm
  exact ⟨ph.page n i, by rw [pte_eq hp, hr]; rfl, hvalid, set_pte h hp hr _⟩

/-- **`unmap`** writes a zero. -/
theorem unmap_pte (h : pt.Wf ph) (hm : pt.unmap ph vpn = some ph') :
    ∃ w, pt.translateVpnToPte ph vpn = some w ∧ Pte.isValid w = true ∧
      ∀ v, pt.translateVpnToPte ph' v =
        if v % 2 ^ 36 = vpn % 2 ^ 36 then some 0 else pt.translateVpnToPte ph v := by
  obtain ⟨p, n, i, hp, -, hr, hvalid, rfl⟩ := unmap_spec hm
  exact ⟨ph.page n i, by rw [pte_eq hp, hr]; rfl, hvalid, set_pte h hp hr _⟩

/-- A page descriptor is valid and names its frame. -/
theorem isValid_new : Pte.isValid (Pte.new ppn fl) = true := by
  have hleaf : isLeaf 3 (Pte.new ppn fl) = true := isLeaf_new
  exact Pte.isValid_of_isTable (by simpa [isLeaf, Pte.isTable, Pte.descTable] using hleaf)

end Pte

/-! ## Runs -/

/-- What a call says about the pages: the frame each is mapped to. -/
def TableOp.record (m : ℕ → Option ℕ) : TableOp → ℕ → Option ℕ
  | .map vpn ppn _ => Function.update m vpn (some ppn)
  | .remap _ _ => m
  | .unmap vpn => Function.update m vpn none

/-- The frame that a page was last mapped to and not unmapped from since. -/
def lastMapped (ops : List TableOp) : ℕ → Option ℕ := ops.foldl TableOp.record fun _ => none

/-- Page numbers of 36 bits. -/
def TableOp.Small : TableOp → Prop
  | .map vpn ppn _ => vpn < 2 ^ 36 ∧ ppn < 2 ^ 36
  | .remap vpn _ => vpn < 2 ^ 36
  | .unmap vpn => vpn < 2 ^ 36

/-- Some page of the region was mapped. -/
def Touched (ops : List TableOp) (r : ℕ) : Prop := ∃ op ∈ ops, op.mapsInto r

/-- The word of a page, mapped or not. -/
def WordOf (w : Word) : Option ℕ → Prop
  | some ppn => ppn < 2 ^ 36 ∧ ∃ fl, w = Pte.new ppn fl
  | none => w = 0

/-- The tables after some calls: a page has a word once a page of its region was mapped, and the
word says what the calls say. -/
structure Reflects (s : PageTable × Phys) (ops : List TableOp) : Prop where
  wf : s.1.Wf s.2
  touched : ∀ v < 2 ^ 36, ∀ w, s.1.translateVpnToPte s.2 v = some w →
    Touched ops (region v) ∧ WordOf w (lastMapped ops v)
  untouched : ∀ v < 2 ^ 36, s.1.translateVpnToPte s.2 v = none →
    ¬ Touched ops (region v) ∧ lastMapped ops v = none
  small : ∀ v, 2 ^ 36 ≤ v → lastMapped ops v = none

/-- `translate_va_to_pa` and `bmm::translate` say of an address what the calls before say. -/
structure TranslatesRight (pt : PageTable) (ph : Phys) (ops : List TableOp) (va : ℕ) : Prop where
  frame : pt.translateVaToPa ph va = (lastMapped ops (va / 4096)).map (· * 4096 + va % 4096)
  isSome : (Bmm.translate pt ph va).isSome = Bmm.isMapped pt ph va

section Runs

variable {ph₀ ph₁ ph : Phys} {pt₀ pt : PageTable} {ops : List TableOp} {s s' : PageTable × Phys}
  {op : TableOp}

theorem lastMapped_concat (ops : List TableOp) (op : TableOp) :
    lastMapped (ops ++ [op]) = op.record (lastMapped ops) := by
  rw [lastMapped, List.foldl_concat]
  rfl

theorem touched_concat {r : ℕ} : Touched (ops ++ [op]) r ↔ Touched ops r ∨ op.mapsInto r := by
  simp [Touched, or_and_right, exists_or]

/-- A page that is mapped is in a region that was. -/
theorem Reflects.touched_of_mapped (h : Reflects s ops) {v ppn : ℕ}
    (hv : lastMapped ops v = some ppn) : v < 2 ^ 36 ∧
      ∃ w, s.1.translateVpnToPte s.2 v = some w ∧ Touched ops (region v) ∧ WordOf w (some ppn) := by
  have hlt : v < 2 ^ 36 := by
    by_contra hge
    rw [h.small v (by omega)] at hv
    cases hv
  cases hw : s.1.translateVpnToPte s.2 v with
  | none =>
    rw [(h.untouched v hlt hw).2] at hv
    cases hv
  | some w =>
    have := h.touched v hlt w hw
    rw [hv] at this
    exact ⟨hlt, w, rfl, this⟩

/-- Writing the word of a page, and nothing else, into a region that has a table. -/
theorem Reflects.write (h : Reflects s ops) {vpn : ℕ} {w : Word} (hvpn : vpn < 2 ^ 36)
    (hwf : s'.1.Wf s'.2) (htouched : Touched ops (region vpn)) (hmaps : ∀ r, ¬ op.mapsInto r)
    (hwords : ∀ v, s'.1.translateVpnToPte s'.2 v =
      if v % 2 ^ 36 = vpn % 2 ^ 36 then some w else s.1.translateVpnToPte s.2 v)
    (hrecord : ∀ v, op.record (lastMapped ops) v =
      if v = vpn then op.record (lastMapped ops) vpn else lastMapped ops v)
    (hw : WordOf w (op.record (lastMapped ops) vpn)) : Reflects s' (ops ++ [op]) := by
  have hsame : ∀ r, Touched (ops ++ [op]) r ↔ Touched ops r := fun r => by
    rw [touched_concat, or_iff_left (hmaps r)]
  refine ⟨hwf, fun v hv u hu => ?_, fun v hv hu => ?_, fun v hv => ?_⟩
  · rw [hwords, Nat.mod_eq_of_lt hv, Nat.mod_eq_of_lt hvpn] at hu
    rw [hsame, lastMapped_concat, hrecord]
    by_cases hvv : v = vpn
    · rw [if_pos hvv] at hu
      cases hu
      rw [if_pos hvv, hvv]
      exact ⟨htouched, hw⟩
    · rw [if_neg hvv] at hu ⊢
      exact h.touched v hv u hu
  · rw [hwords, Nat.mod_eq_of_lt hv, Nat.mod_eq_of_lt hvpn] at hu
    split at hu
    · cases hu
    · rename_i hvv
      rw [hsame, lastMapped_concat, hrecord, if_neg hvv]
      exact h.untouched v hv hu
  · rw [lastMapped_concat, hrecord, if_neg (by omega)]
    exact h.small v hv

/-- Mapping a page gives its region a table, in which the other words are empty. -/
theorem Reflects.map {pt pt' : PageTable} {ph ph' : Phys} {vpn ppn : ℕ} {fl : PTEFlags}
    (h : Reflects (pt, ph) ops) (hvpn : vpn < 2 ^ 36) (hppn : ppn < 2 ^ 36)
    (hrun : pt.map ph vpn ppn fl = some (pt', ph')) :
    Reflects (pt', ph') (ops ++ [.map vpn ppn fl]) := by
  obtain ⟨hwf', -⟩ := map_leaf h.wf hrun
  have hwords := map_pte h.wf hrun
  have hmaps : ∀ v, v < 2 ^ 36 →
      ((TableOp.map vpn ppn fl).mapsInto (region v) ↔ region v = region vpn) :=
    fun v _ => eq_comm
  refine ⟨hwf', fun v hv w hw => ?_, fun v hv hw => ?_, fun v hv => ?_⟩
  · rw [hwords, Nat.mod_eq_of_lt hv, Nat.mod_eq_of_lt hvpn] at hw
    rw [touched_concat, lastMapped_concat, hmaps v hv, TableOp.record, Function.update_apply]
    by_cases hvv : v = vpn
    · rw [if_pos hvv] at hw ⊢
      cases hw
      exact ⟨Or.inr (by rw [hvv]), hppn, fl, rfl⟩
    · rw [if_neg hvv] at hw ⊢
      split at hw
      · rename_i hregion
        refine ⟨Or.inr hregion, ?_⟩
        cases hold : pt.translateVpnToPte ph v with
        | none =>
          rw [hold] at hw
          cases hw
          rw [(h.untouched v hv hold).2]
          rfl
        | some u =>
          rw [hold] at hw
          cases hw
          exact (h.touched v hv _ hold).2
      · have := h.touched v hv w hw
        exact ⟨Or.inl this.1, this.2⟩
  · rw [hwords] at hw
    split at hw
    · cases hw
    · rename_i hvv
      split at hw
      · cases hw
      · rename_i hregion
        rw [touched_concat, lastMapped_concat, hmaps v hv, TableOp.record, Function.update_apply,
          if_neg (fun heq => hvv (by rw [heq]))]
        have := h.untouched v hv hw
        exact ⟨fun hor => hor.elim this.1 hregion, this.2⟩
  · rw [lastMapped_concat, TableOp.record, Function.update_of_ne (by omega)]
    exact h.small v hv

/-- One call. -/
theorem Reflects.step (h : Reflects s ops) (hop : op.Small) (hrun : op.run s = some s') :
    Reflects s' (ops ++ [op]) := by
  obtain ⟨pt, ph⟩ := s
  cases op with
  | map vpn ppn fl =>
    exact h.map hop.1 hop.2 hrun
  | remap vpn fl =>
    obtain ⟨ph', hm, rfl⟩ := Option.map_eq_some_iff.mp hrun
    obtain ⟨w, hw, hvalid, hwords⟩ := remap_pte h.wf hm
    obtain ⟨htouched, hword⟩ := h.touched vpn hop w hw
    refine h.write hop (remap_leaf h.wf hm).1 htouched (fun r => id) hwords (fun v => ?_) ?_
    · split
      · rename_i heq
        rw [heq]
      · rfl
    · rw [TableOp.record]
      cases hlast : lastMapped ops vpn with
      | none =>
        -- an empty word is not valid
        rw [hlast] at hword
        rw [show w = 0 from hword] at hvalid
        cases hvalid
      | some ppn =>
        rw [hlast] at hword
        obtain ⟨hppn, fl', rfl⟩ := hword
        exact ⟨hppn, fl, by rw [Pte.ppn_new hppn]⟩
  | unmap vpn =>
    obtain ⟨ph', hm, rfl⟩ := Option.map_eq_some_iff.mp hrun
    obtain ⟨w, hw, -, hwords⟩ := unmap_pte h.wf hm
    refine h.write hop (unmap_leaf h.wf hm).1 (h.touched vpn hop w hw).1 (fun r => id) hwords
      (fun v => ?_) ?_
    · rw [TableOp.record, Function.update_apply, Function.update_self]
    · rw [TableOp.record, Function.update_self]
      rfl

/-- A new table has no word for any page. -/
theorem reflects_new (hok : ph₀.Ok) (hnew : PageTable.new ph₀ = some (pt₀, ph₁)) :
    Reflects (pt₀, ph₁) [] := by
  obtain ⟨root, rest, hfree, rfl, rfl⟩ := new_spec hok hnew
  have hreach : ∀ q m, reach Pte.child (ph₀.pop root rest).page root q = some m → q = [] ∧ m = root := by
    intro q m hm
    cases q with
    | nil =>
      cases hm
      exact ⟨rfl, rfl⟩
    | cons i q =>
      rw [Radix.reach, Phys.pop_page_self, Pte.child_zero] at hm
      cases hm
  have hwf : PageTable.Wf ⟨root, none, true⟩ (ph₀.pop root rest) := by
    refine ⟨hok.pop hfree, fun q q' m _ _ hm hm' => ?_, fun q m _ hm => ?_, fun t ht => ?_,
      fun t ht => ?_⟩
    · rw [(hreach q m hm).1, (hreach q' m hm').1]
    · rw [(hreach q m hm).2]
      exact Phys.Live.pop_self hok hfree
    · cases ht
    · cases ht
  have hnone : ∀ v, PageTable.translateVpnToPte ⟨root, none, true⟩ (ph₀.pop root rest) v = none := by
    intro v
    rw [pte_eq (indexes_eq v), Option.map_eq_none_iff, Option.eq_none_iff_forall_ne_some]
    intro m hm
    cases (hreach _ m hm).1
  refine ⟨hwf, fun v _ w hw => ?_, fun v _ _ => ⟨?_, rfl⟩, fun v _ => rfl⟩
  · rw [hnone] at hw
    cases hw
  · simp [Touched]

theorem reflects_run (h : Reflects s []) (hops : ∀ op ∈ ops, op.Small)
    (hrun : runTable s ops = some s') : Reflects s' ops := by
  induction ops using List.reverseRecOn generalizing s' with
  | nil =>
    cases hrun
    exact h
  | append_singleton ops op ih =>
    rw [runTable, List.foldlM_append] at hrun
    obtain ⟨s₁, h₁, hlast⟩ := Option.bind_eq_some_iff.mp hrun
    rw [List.foldlM_cons] at hlast
    obtain ⟨s₂, h₂, heq⟩ := Option.bind_eq_some_iff.mp hlast
    cases heq
    have hih := ih (fun op hmem => hops op (List.mem_append_left _ hmem)) h₁
    exact hih.step (hops op (by simp)) h₂

/-- The word of a page is that of the page with the same 36 low bits. -/
theorem pte_mod (pt : PageTable) (ph : Phys) (v : ℕ) :
    pt.translateVpnToPte ph v = pt.translateVpnToPte ph (v % 2 ^ 36) := by
  unfold PageTable.translateVpnToPte PageTable.findPte
  rw [indexes_eq_iff.mpr (by rw [Nat.mod_mod])]

/-- **Translation after any calls on a new table.**  It is right for an address exactly when no
page of its 2 MiB region was ever mapped, or its own page is mapped. -/
theorem translatesRight_iff (hok : ph₀.Ok) (hnew : PageTable.new ph₀ = some (pt₀, ph₁))
    (hops : ∀ op ∈ ops, op.Small) (hrun : runTable (pt₀, ph₁) ops = some (pt, ph)) (va : ℕ) :
    TranslatesRight pt ph ops va ↔
      ¬ Touched ops (region (va / 4096)) ∨ ∃ ppn, lastMapped ops (va / 4096) = some ppn := by
  have h := reflects_run (reflects_new hok hnew) hops hrun
  set v := va / 4096 with hv
  have hlow : v % 2 ^ 36 < 2 ^ 36 := Nat.mod_lt _ (by decide)
  have hregion : region (v % 2 ^ 36) = region v := by rw [region, region, Nat.mod_mod]
  have hmod := pte_mod pt ph v
  constructor
  · intro hright
    have hframe := hright.frame
    rw [translateVaToPa_eq, ← hv] at hframe
    cases hw : pt.translateVpnToPte ph v with
    | none =>
      rw [hmod] at hw
      have := (h.untouched _ hlow hw).1
      rw [hregion] at this
      exact Or.inl this
    | some w =>
      rw [hw, Option.map_some] at hframe
      obtain ⟨ppn, hppn, -⟩ := Option.map_eq_some_iff.mp hframe.symm
      exact Or.inr ⟨ppn, hppn⟩
  · rintro (hnot | ⟨ppn, hppn⟩)
    · have hw : pt.translateVpnToPte ph v = none := by
        rw [hmod, Option.eq_none_iff_forall_ne_some]
        intro w hw
        have := (h.touched _ hlow w hw).1
        rw [hregion] at this
        exact hnot this
      have hlast : lastMapped ops v = none := by
        rcases Nat.lt_or_ge v (2 ^ 36) with hlt | hge
        · exact (h.untouched v hlt hw).2
        · exact h.small v hge
      refine ⟨?_, ?_⟩
      · rw [translateVaToPa_eq, ← hv, hw, hlast]
        rfl
      · rw [Bmm.translate, Bmm.isMapped, translateVaToPa_eq, ← hv, hw]
        rfl
    · obtain ⟨-, w, hw, -, hlt, fl, rfl⟩ := h.touched_of_mapped hppn
      have hw : pt.translateVpnToPte ph v = some (Pte.new ppn fl) := hw
      refine ⟨?_, ?_⟩
      · rw [translateVaToPa_eq, ← hv, hw, hppn, Option.map_some, Option.map_some, Pte.ppn_new hlt]
      · rw [Bmm.translate, Bmm.isMapped, translateVaToPa_eq, ← hv, hw, Option.map_some,
          Option.any_some, isValid_new]
        rfl

/-- A new table on a machine with sixteen free frames, and some calls on it. -/
def newAndRun (ops : List TableOp) : Option (PageTable × Phys) :=
  (PageTable.new sixteenFrames).bind fun s => runTable s ops

/-- A page is mapped and its neighbour is not. -/
theorem translatesRight_iff_mapped :
    ∃ ph₁ ph : Phys, ∃ pt₀ pt : PageTable, PageTable.new sixteenFrames = some (pt₀, ph₁) ∧
      runTable (pt₀, ph₁) [.map 0x400 0x5f000 ⟨0x17⟩] = some (pt, ph) ∧
      (TranslatesRight pt ph [.map 0x400 0x5f000 ⟨0x17⟩] 0x400123 ↔
        ¬ Touched [.map 0x400 0x5f000 ⟨0x17⟩] (region (0x400123 / 4096)) ∨
          ∃ ppn, lastMapped [.map 0x400 0x5f000 ⟨0x17⟩] (0x400123 / 4096) = some ppn) := by
  have hrun : (newAndRun [.map 0x400 0x5f000 ⟨0x17⟩]).isSome = true := by decide
  obtain ⟨⟨pt, ph⟩, hrun⟩ := Option.isSome_iff_exists.mp hrun
  obtain ⟨⟨pt₀, ph₁⟩, hnew, hops⟩ := Option.bind_eq_some_iff.mp hrun
  refine ⟨ph₁, ph, pt₀, pt, hnew, hops, translatesRight_iff sixteenFrames_ok hnew ?_ hops _⟩
  simp only [List.mem_cons, List.not_mem_nil, or_false, forall_eq]
  exact ⟨by decide, by decide⟩

/-- The neighbour of a mapped page translates to the frame 0. -/
theorem neighbour_translates :
    ∃ ph₁ ph : Phys, ∃ pt₀ pt : PageTable, PageTable.new sixteenFrames = some (pt₀, ph₁) ∧
      runTable (pt₀, ph₁) [.map 0x400 0x5f000 ⟨0x17⟩] = some (pt, ph) ∧
      pt.translateVaToPa ph 0x401123 = some 0x123 ∧
      ¬ TranslatesRight pt ph [.map 0x400 0x5f000 ⟨0x17⟩] 0x401123 := by
  have hrun : (newAndRun [.map 0x400 0x5f000 ⟨0x17⟩]).map (fun s =>
      s.1.translateVaToPa s.2 0x401123) = some (some 0x123) := by decide
  obtain ⟨⟨pt, ph⟩, hrun, hva⟩ := Option.map_eq_some_iff.mp hrun
  obtain ⟨⟨pt₀, ph₁⟩, hnew, hops⟩ := Option.bind_eq_some_iff.mp hrun
  refine ⟨ph₁, ph, pt₀, pt, hnew, hops, hva, fun h => ?_⟩
  have hframe := h.frame
  rw [hva] at hframe
  revert hframe
  decide

end Runs

end QuackOS.Mm
