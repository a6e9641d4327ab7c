import QuackOS.Vm.VmaEdits

/-!
# Lookups against a linear scan

`find` and `find_index_containing` search the table by halves.  On a table in order they find what
going through the entries one by one does.

* `VmaManager.linearFind`, `VmaManager.linearIndex` — the scan;
* `VmaManager.Sorted` — the entries in use are not empty, sorted and disjoint;
* `lookup_of_contains`, `lookup_of_none` — what both kinds of lookup return;
* `find_eq_linear` — **the lookups are the scan**, and find the one entry that contains the address.
-/

namespace QuackOS.Vm

open VmaManager

namespace VmaManager

/-- The index of the first entry in use that contains the address. -/
def linearIndex (m : VmaManager) (vaddr : ℕ) : Option (Option ℕ) :=
  m.position fun e => e.contains vaddr

/-- The first entry in use that contains the address. -/
def linearFind (m : VmaManager) (vaddr : ℕ) : Option (Option VmaEntry) := do
  match ← m.linearIndex vaddr with
  | none => return none
  | some idx =>
    let e ← m.entry idx
    return some e

/-- The entries in use are not empty, sorted by their starts, and no two contain one address.  What is
in the slots behind them does not matter. -/
structure Sorted (m : VmaManager) : Prop where
  nonempty : ∀ i < m.len, ∃ e, m.entry i = some e ∧ e.isEmpty = false
  sorted : ∀ i j a b, i < j → j < m.len → m.entry i = some a → m.entry j = some b →
    a.startVaddr ≤ b.startVaddr
  disjoint : ∀ i j a b, i < j → j < m.len → m.entry i = some a → m.entry j = some b →
    ∀ vaddr, ¬ (a.contains vaddr = true ∧ b.contains vaddr = true)

end VmaManager

section Lookup

variable {m : VmaManager} {L : List VmaEntry} {vaddr i j : ℕ} {a b e : VmaEntry}

/-- The entries in use of a sorted table are an ordered list. -/
theorem VmaManager.Sorted.lists (h : m.Sorted) : ∃ L, Lists m L ∧ Ordered L := by
  have hfilled : ∀ i : Fin m.len, (m.entry i).isSome = true := fun i => by
    obtain ⟨e, he, -⟩ := h.nonempty i i.isLt
    rw [he]
    rfl
  have hlen : m.len ≤ maxVmaEntries := by
    by_contra hlong
    obtain ⟨e, he, -⟩ := h.nonempty maxVmaEntries (Nat.lt_of_not_le hlong)
    rw [VmaManager.entry, if_neg (Nat.lt_irrefl _)] at he
    cases he
  obtain ⟨L, hL⟩ : ∃ L, L = List.ofFn fun i : Fin m.len => (m.entry i).get (hfilled i) := ⟨_, rfl⟩
  have hlength : L.length = m.len := by rw [hL, List.length_ofFn]
  have hentry : ∀ i, (hi : i < L.length) → m.entry i = some L[i] := fun i hi => by
    simp only [hL, List.getElem_ofFn, Option.some_get]
  refine ⟨L, ⟨hlength.symm, fun i hi => ?_, hlength.trans_le hlen⟩, fun e he => ?_, ?_⟩
  · have hi' : i < L.length := hlength.symm ▸ hi
    rw [List.getElem?_eq_getElem hi', ← hentry i hi', VmaManager.entry, if_pos (by omega)]
  · obtain ⟨i, hi, rfl⟩ := List.getElem_of_mem he
    obtain ⟨e, he, hne⟩ := h.nonempty i (hlength ▸ hi)
    obtain rfl : L[i] = e := Option.some.inj ((hentry i hi).symm.trans he)
    simpa [VmaEntry.isEmpty] using hne
  · refine List.pairwise_iff_getElem.mpr fun i j hi hj hij => ?_
    -- were it not so, the start of the second area would be in both
    by_contra hover
    obtain ⟨e, he, hne⟩ := h.nonempty j (hlength ▸ hj)
    obtain rfl : L[j] = e := Option.some.inj ((hentry j hj).symm.trans he)
    have hstart := h.sorted i j _ _ hij (hlength ▸ hj) (hentry i hi) (hentry j hj)
    refine h.disjoint i j _ _ hij (hlength ▸ hj) (hentry i hi) (hentry j hj) L[j].startVaddr ?_
    rw [VmaEntry.contains_eq_true, VmaEntry.contains_eq_true]
    have hpos : L[j].startVaddr < L[j].endVaddr := by simpa [VmaEntry.isEmpty] using hne
    exact ⟨⟨hstart, Nat.lt_of_not_le hover⟩, Nat.le_refl _, hpos⟩

theorem VmaManager.Lists.entry_eq (h : Lists m L) (hi : i < m.len) : m.entry i = L[i]? := by
  have hle := h.length_le
  rw [← h.len_eq] at hle
  rw [VmaManager.entry, if_pos (by omega), h.slots i hi]

/-- One place of the list has the address. -/
theorem Ordered.index_unique (h : Ordered L) (hi : L[i]? = some a) (hj : L[j]? = some b)
    (hca : a.contains vaddr = true) (hcb : b.contains vaddr = true) : i = j := by
  obtain ⟨hi', rfl⟩ := List.getElem?_eq_some_iff.mp hi
  obtain ⟨hj', rfl⟩ := List.getElem?_eq_some_iff.mp hj
  rw [VmaEntry.contains_eq_true] at hca hcb
  rcases Nat.lt_trichotomy i j with hij | hij | hij
  · have hap := List.pairwise_iff_getElem.mp h.apart i j hi' hj' hij
    omega
  · exact hij
  · have hap := List.pairwise_iff_getElem.mp h.apart j i hj' hi' hij
    omega

/-- The lookups at an address that an area contains. -/
theorem lookup_of_contains (h : Lists m L) (hord : Ordered L) (hi : L[i]? = some e)
    (hc : e.contains vaddr = true) :
    (m.find vaddr = some (some e) ∧ m.findIndexContaining vaddr = some (some i)) ∧
      m.linearFind vaddr = some (some e) ∧ m.linearIndex vaddr = some (some i) := by
  have hmem : e ∈ L := List.mem_of_getElem? hi
  have hplace : ∀ A x B, L = A ++ x :: B → x.contains vaddr = true → A.length = i ∧ x = e := by
    rintro A x B hL hcx
    have hx : L[A.length]? = some x := by
      rw [hL, List.getElem?_append_right (Nat.le_refl _), Nat.sub_self]
      rfl
    obtain rfl := hord.index_unique hx hi hcx hc
    exact ⟨rfl, Option.some.inj (hx.symm.trans hi)⟩
  constructor
  · rcases h.find_spec hord vaddr with ⟨-, -, hnone⟩ | ⟨A, x, B, hL, hfind, hindex, hcx⟩
    · rw [hnone e hmem] at hc
      cases hc
    · obtain ⟨hA, rfl⟩ := hplace A x B hL hcx
      exact ⟨hfind, hA ▸ hindex⟩
  · rcases h.position fun e => e.contains vaddr with ⟨-, hnone⟩ | ⟨A, x, B, hL, hpos, hcx, -⟩
    · rw [hnone e hmem] at hc
      cases hc
    · obtain ⟨hA, rfl⟩ := hplace A x B hL hcx
      have hindex : m.linearIndex vaddr = some (some i) := hA ▸ hpos
      have hentry : m.entry A.length = some x := (hL ▸ h : Lists m (A ++ x :: B)).entry
      rw [linearFind, hindex, ← hA]
      refine ⟨?_, rfl⟩
      dsimp only [Option.bind_eq_bind, Option.bind_some]
      rw [hentry]
      rfl

/-- The lookups at an address that no area contains. -/
theorem lookup_of_none (h : Lists m L) (hord : Ordered L)
    (hnone : ∀ x ∈ L, x.contains vaddr = false) :
    (m.find vaddr = some none ∧ m.findIndexContaining vaddr = some none) ∧
      m.linearFind vaddr = some none ∧ m.linearIndex vaddr = some none := by
  constructor
  · rcases h.find_spec hord vaddr with ⟨hfind, hindex, -⟩ | ⟨A, x, B, rfl, -, -, hcx⟩
    · exact ⟨hfind, hindex⟩
    · rw [hnone x (by simp)] at hcx
      cases hcx
  · rcases h.position fun e => e.contains vaddr with ⟨hpos, -⟩ | ⟨A, x, B, rfl, -, hcx, -⟩
    · have hindex : m.linearIndex vaddr = some none := hpos
      rw [linearFind, hindex]
      exact ⟨rfl, rfl⟩
    · rw [hnone x (by simp)] at hcx
      cases hcx

/-- **A lookup by halves is a linear scan.**  For every table whose entries are not empty, sorted and
disjoint, and every address, `find` and `find_index_containing` return what the scan does: the entry
that contains the address and its index, if there is one, which is then the only one. -/
theorem find_eq_linear (h : m.Sorted) (vaddr : ℕ) :
    m.find vaddr = m.linearFind vaddr ∧ m.findIndexContaining vaddr = m.linearIndex vaddr ∧
    (∀ i e, i < m.len → m.entry i = some e → e.contains vaddr = true →
      m.find vaddr = some (some e) ∧ m.findIndexContaining vaddr = some (some i)) ∧
    ((∀ i e, i < m.len → m.entry i = some e → e.contains vaddr = false) →
      m.find vaddr = some none ∧ m.findIndexContaining vaddr = some none) := by
  obtain ⟨L, hL, hord⟩ := h.lists
  have hplace : ∀ x ∈ L, ∃ i < m.len, m.entry i = some x ∧ L[i]? = some x := fun x hx => by
    obtain ⟨i, hi, rfl⟩ := List.getElem_of_mem hx
    have hin : i < m.len := hL.len_eq ▸ hi
    have hget := List.getElem?_eq_getElem hi
    exact ⟨i, hin, (hL.entry_eq hin).trans hget, hget⟩
  have hfound : ∀ i e, i < m.len → m.entry i = some e → e.contains vaddr = true →
      m.find vaddr = some (some e) ∧ m.findIndexContaining vaddr = some (some i) :=
    fun i e hi he hc => (lookup_of_contains hL hord ((hL.entry_eq hi).symm.trans he) hc).1
  have hmissed : (∀ i e, i < m.len → m.entry i = some e → e.contains vaddr = false) →
      ∀ x ∈ L, x.contains vaddr = false := fun hall x hx => by
    obtain ⟨i, hi, hentry, -⟩ := hplace x hx
    exact hall i x hi hentry
  have hsame : m.find vaddr = m.linearFind vaddr ∧
      m.findIndexContaining vaddr = m.linearIndex vaddr := by
    by_cases hany : ∃ x ∈ L, x.contains vaddr = true
    · obtain ⟨x, hx, hc⟩ := hany
      obtain ⟨i, -, -, hi⟩ := hplace x hx
      obtain ⟨⟨hfind, hindex⟩, hscan, hscanIndex⟩ := lookup_of_contains hL hord hi hc
      exact ⟨hfind.trans hscan.symm, hindex.trans hscanIndex.symm⟩
    · have hnone : ∀ x ∈ L, x.contains vaddr = false := fun x hx =>
        Bool.eq_false_iff.mpr fun hc => hany ⟨x, hx, hc⟩
      obtain ⟨⟨hfind, hindex⟩, hscan, hscanIndex⟩ := lookup_of_none hL hord hnone
      exact ⟨hfind.trans hscan.symm, hindex.trans hscanIndex.symm⟩
  exact ⟨hsame.1, hsame.2, hfound, fun hall => (lookup_of_none hL hord (hmissed hall)).1⟩

/-- An area of read-only code. -/
def textArea (start stop : ℕ) : VmaEntry := ⟨start, stop, ⟨true, false, true⟩, .code, 0, false⟩

/-- Two areas side by side. -/
def twoAreas : VmaManager where
  entries i := if i = 0 then some (textArea 0x1000 0x2000)
    else if i = 1 then some (textArea 0x2000 0x3000) else none
  len := 2

theorem sorted_twoAreas : twoAreas.Sorted where
  nonempty := by decide
  sorted i j a b hij hj ha hb := by
    obtain rfl : j = 1 := by
      have hj' : j < 2 := hj
      omega
    obtain rfl : i = 0 := by omega
    cases ha
    cases hb
    decide
  disjoint i j a b hij hj ha hb vaddr := by
    obtain rfl : j = 1 := by
      have hj' : j < 2 := hj
      omega
    obtain rfl : i = 0 := by omega
    cases ha
    cases hb
    rw [VmaEntry.contains_eq_true, VmaEntry.contains_eq_true]
    rintro ⟨⟨-, hend⟩, hstart, -⟩
    exact absurd hend (Nat.not_lt.mpr hstart)

/-- The address where they touch is in the second one. -/
theorem find_eq_linear_twoAreas : twoAreas.find 0x2000 = twoAreas.linearFind 0x2000 ∧
    twoAreas.findIndexContaining 0x2000 = some (some 1) := by
  obtain ⟨hfind, -, hfound, -⟩ := find_eq_linear sorted_twoAreas 0x2000
  exact ⟨hfind, (hfound 1 (textArea 0x2000 0x3000) (by decide) rfl (by decide)).2⟩

end Lookup

end QuackOS.Vm
