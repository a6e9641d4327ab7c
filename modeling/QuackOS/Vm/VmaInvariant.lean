import QuackOS.Vm.VmaEdits

/-!
# The invariant of the area table

Every lookup and every page-fault decision takes the areas to be sorted and disjoint.

* `TableOk` — the invariant, slot by slot;
* `Holds` — the same of the list the table holds, with `TableOk.holds` and `Holds.tableOk`;
* `tableOk_run` — **the invariant holds in every state of a run in which no area that is merged
  into its predecessor reaches past the start of the next one**;
* `insert_overlaps` — a run in which one does.
-/

namespace QuackOS.Vm

open VmaManager

/-- The first `len` slots hold areas that are not empty, sorted by address and disjoint; the
others are empty. -/
structure TableOk (m : VmaManager) : Prop where
  filled : ∀ i < m.len, ∃ e, m.entries i = some e ∧ e.startVaddr < e.endVaddr
  sorted : ∀ i j a b, i < j → m.entries i = some a → m.entries j = some b →
    a.startVaddr < b.startVaddr
  disjoint : ∀ i j a b, i ≠ j → m.entries i = some a → m.entries j = some b →
    ∀ vaddr, ¬ (a.contains vaddr = true ∧ b.contains vaddr = true)
  empty : ∀ i, m.len ≤ i → m.entries i = none
  len_le : m.len ≤ maxVmaEntries

/-- The calls that change the table. -/
inductive VmaCall
  | insert (e : VmaEntry)
  | remove (start stop : ℕ)
  | splitAt (vaddr : ℕ)
  | extendStack (newStart : ℕ)

/-- What a call leaves of the table, whether it succeeds or not; `none` is a panic. -/
def VmaCall.run (m : VmaManager) : VmaCall → Option VmaManager
  | .insert e => (m.insert e).map Prod.fst
  | .remove start stop => (m.remove start stop).map Prod.fst
  | .splitAt vaddr => (m.splitAt vaddr).map Prod.fst
  | .extendStack newStart => (m.extendStack newStart).map Prod.fst

/-- One call of a run. -/
def vmaStep (m : Option VmaManager) (c : VmaCall) : Option VmaManager := m.bind c.run

/-- An area that can be inserted and goes right behind an area it can be merged with ends before
the next area starts. -/
def InsertFits (m : VmaManager) (e : VmaEntry) : Prop :=
  e.startVaddr < e.endVaddr → m.len < maxVmaEntries →
    (∀ i x, m.entries i = some x → x.startVaddr ≠ e.startVaddr) →
    ∀ i p, m.entries i = some p → p.endVaddr = e.startVaddr → p.canMerge e = true →
    ∀ j n, m.entries j = some n → e.startVaddr < n.startVaddr → e.endVaddr ≤ n.startVaddr

/-- The condition of a call. -/
def CallFits (m : VmaManager) : VmaCall → Prop
  | .insert e => InsertFits m e
  | _ => True

/-! ## The list in the table -/

/-- The area is in the table. -/
def VmaManager.Has (m : VmaManager) (x : VmaEntry) : Prop := ∃ i, m.entries i = some x

/-- The area is the first of its type in the table. -/
def VmaManager.IsFirst (m : VmaManager) (t : VmRegionType) (x : VmaEntry) : Prop :=
  ∃ i, m.entries i = some x ∧ x.regionType = t ∧
    ∀ j < i, ∀ y, m.entries j = some y → y.regionType ≠ t

/-- The table holds an ordered list. -/
def Holds (m : VmaManager) : Prop := ∃ L, Rep m L ∧ Ordered L

theorem Holds.tableOk {m : VmaManager} (h : Holds m) : TableOk m := by
  obtain ⟨L, hrep, hord⟩ := h
  have hapart : ∀ i j a b, i < j → m.entries i = some a → m.entries j = some b →
      a.startVaddr < a.endVaddr ∧ a.endVaddr ≤ b.startVaddr := by
    intro i j a b hij ha hb
    rw [hrep.slots] at ha hb
    obtain ⟨hi, rfl⟩ := List.getElem?_eq_some_iff.mp ha
    obtain ⟨hj, rfl⟩ := List.getElem?_eq_some_iff.mp hb
    exact ⟨hord.nonempty _ (List.getElem_mem hi),
      List.pairwise_iff_getElem.mp hord.apart i j hi hj hij⟩
  refine ⟨?_, ?_, ?_, ?_, ?_⟩
  · intro i hi
    rw [hrep.len_eq] at hi
    exact ⟨L[i], by rw [hrep.slots, List.getElem?_eq_getElem hi],
      hord.nonempty _ (List.getElem_mem hi)⟩
  · intro i j a b hij ha hb
    have := hapart i j a b hij ha hb
    omega
  · rintro i j a b hne ha hb vaddr ⟨hca, hcb⟩
    simp only [VmaEntry.contains, Bool.and_eq_true, decide_eq_true_eq] at hca hcb
    rcases Nat.lt_or_gt_of_ne hne with hlt | hgt
    · have := hapart i j a b hlt ha hb
      omega
    · have := hapart j i b a hgt hb ha
      omega
  · intro i hi
    rw [hrep.slots, List.getElem?_eq_none]
    rwa [← hrep.len_eq]
  · rw [hrep.len_eq]
    exact hrep.length_le

/-- The converse: the slots in use, one after the other. -/
theorem TableOk.holds {m : VmaManager} (h : TableOk m) : Holds m := by
  choose e hentry hne using h.filled
  have hslots : ∀ i, m.entries i = (List.ofFn fun i : Fin m.len => e i i.isLt)[i]? := by
    intro i
    rw [List.getElem?_ofFn]
    by_cases hi : i < m.len
    · rw [dif_pos hi]
      exact hentry i hi
    · rw [dif_neg hi]
      exact h.empty i (by omega)
  refine ⟨_, ⟨(List.length_ofFn).symm, hslots, ?_⟩, ?_, ?_⟩
  · rw [List.length_ofFn]
    exact h.len_le
  · intro x hx
    obtain ⟨i, rfl⟩ := (List.mem_ofFn' _ _).mp hx
    exact hne i i.isLt
  · refine List.pairwise_ofFn.mpr fun i j hij => ?_
    -- the first address of the later area is not in the earlier one
    have hsort := h.sorted i j _ _ hij (hentry i i.isLt) (hentry j j.isLt)
    have happart := h.disjoint i j _ _ (Nat.ne_of_lt hij) (hentry i i.isLt) (hentry j j.isLt)
      (e j j.isLt).startVaddr
    have := hne j j.isLt
    simp only [VmaEntry.contains_eq_true] at happart
    omega

/-! ## Calls -/

section Calls

variable {m : VmaManager} {L : List VmaEntry}

theorem VmaManager.Rep.mem_iff (h : Rep m L) {x : VmaEntry} :
    x ∈ L ↔ ∃ i, m.entries i = some x := by
  rw [List.mem_iff_getElem?]
  simp only [h.slots]

theorem VmaManager.Rep.has_iff (h : Rep m L) {x : VmaEntry} : m.Has x ↔ x ∈ L := h.mem_iff.symm

theorem VmaManager.Rep.isFirst_iff (h : Rep m L) {t : VmRegionType} {x : VmaEntry} :
    m.IsFirst t x ↔ ∃ A B, L = A ++ x :: B ∧ x.regionType = t ∧ ∀ a ∈ A, a.regionType ≠ t := by
  constructor
  · rintro ⟨i, hi, hx, hfirst⟩
    rw [h.slots] at hi
    obtain ⟨hlt, hget⟩ := List.getElem?_eq_some_iff.mp hi
    refine ⟨L.take i, L.drop (i + 1), ?_, hx, fun a ha => ?_⟩
    · rw [← hget, ← List.drop_eq_getElem_cons, List.take_append_drop]
    · obtain ⟨j, hj, rfl⟩ := List.getElem_of_mem ha
      rw [List.length_take] at hj
      rw [List.getElem_take]
      refine hfirst j (by omega) _ ?_
      rw [h.slots, List.getElem?_eq_getElem (by omega)]
  · rintro ⟨A, B, rfl, hx, hfirst⟩
    refine ⟨A.length, ?_, hx, fun j hj y hy => ?_⟩
    · rw [h.slots, List.getElem?_append_right le_rfl, Nat.sub_self]
      rfl
    · rw [h.slots, List.getElem?_append_left hj] at hy
      exact hfirst y (List.mem_of_getElem? hy)

/-- There is one first area of a type. -/
theorem first_unique {A B A' B' : List VmaEntry} {x y : VmaEntry} {t : VmRegionType}
    (hL : A ++ x :: B = A' ++ y :: B') (hx : x.regionType = t) (hA : ∀ a ∈ A, a.regionType ≠ t)
    (hy : y.regionType = t) (hA' : ∀ a ∈ A', a.regionType ≠ t) : A = A' ∧ x = y ∧ B = B' := by
  induction A generalizing A' with
  | nil =>
    cases A' with
    | nil =>
      obtain ⟨rfl, rfl⟩ := List.cons.inj hL
      exact ⟨rfl, rfl, rfl⟩
    | cons a A' =>
      obtain ⟨rfl, -⟩ := List.cons.inj hL
      exact absurd hx (hA' x (List.mem_cons_self ..))
  | cons a A ih =>
    cases A' with
    | nil =>
      obtain ⟨rfl, -⟩ := List.cons.inj hL
      exact absurd hy (hA a (List.mem_cons_self ..))
    | cons a' A' =>
      obtain ⟨rfl, hrest⟩ := List.cons.inj hL
      obtain ⟨rfl, rfl, rfl⟩ := ih hrest (fun b hb => hA b (List.mem_cons_of_mem a hb))
        fun b hb => hA' b (List.mem_cons_of_mem a hb)
      exact ⟨rfl, rfl, rfl⟩

theorem VmaManager.IsFirst.unique (h : TableOk m) {t : VmRegionType} {x y : VmaEntry}
    (hx : m.IsFirst t x) (hy : m.IsFirst t y) : x = y := by
  obtain ⟨L, hrep, -⟩ := h.holds
  obtain ⟨A, B, rfl, hxt, hA⟩ := hrep.isFirst_iff.mp hx
  obtain ⟨A', B', hL, hyt, hA'⟩ := hrep.isFirst_iff.mp hy
  exact (first_unique hL hxt hA hyt hA').2.1

theorem VmaManager.Rep.insertFits_iff (h : Rep m L) {e : VmaEntry} : InsertFits m e ↔ Fits L e := by
  unfold InsertFits Fits
  rw [h.len_eq]
  simp only [h.mem_iff, VmaEntry.Joins]
  constructor
  · intro hfits he hlen hstart p hp hjoin n hn hlt
    obtain ⟨i, hi⟩ := hp
    obtain ⟨j, hj⟩ := hn
    exact hfits he hlen (fun i x hx => hstart x ⟨i, hx⟩) i p hi hjoin.1 hjoin.2 j n hj hlt
  · intro hfits he hlen hstart i p hp hend hcan j n hn hlt
    refine hfits he hlen (fun x hx => ?_) p ⟨i, hp⟩ ⟨hend, hcan⟩ n ⟨j, hn⟩ hlt
    obtain ⟨k, hk⟩ := hx
    exact hstart k x hk

/-- A call that ends in an ordered list keeps the table. -/
theorem Ends.holds {α : Type} {run : Option (VmaManager × Except MmError α)}
    {P : List VmaEntry → Except MmError α → Prop} (h : Ends run P)
    (hP : ∀ L r, P L r → Ordered L) : ∃ m', run.map Prod.fst = some m' ∧ Holds m' := by
  obtain ⟨m', r, L, rfl, hrep, hL⟩ := h
  exact ⟨m', rfl, L, hrep, hP L r hL⟩

/-- Every call ends, and keeps the table. -/
theorem run_holds {c : VmaCall} (h : Holds m) (hc : CallFits m c) :
    ∃ m', c.run m = some m' ∧ Holds m' := by
  obtain ⟨L, hrep, hord⟩ := h
  cases c with
  | insert e =>
    have hfits : Fits L e := hrep.insertFits_iff.mp hc
    exact (hrep.insert_spec hord e).holds fun L' r h => h.ordered hord hfits
  | remove start stop =>
    exact (hrep.remove_spec hord start stop).holds fun L' r h => h.ordered hord
  | splitAt vaddr => exact (hrep.splitAt_spec hord vaddr).holds fun L' r h => h.ordered hord
  | extendStack newStart =>
    exact (hrep.extendStack_spec hord newStart).holds fun L' r h => h.ordered hord

end Calls

/-! ## Runs -/

/-- **The table invariant holds in every state of a run, and no call panics**, when no area that
is inserted behind one it is merged with reaches past the start of the next area. -/
theorem tableOk_run (calls : List VmaCall)
    (hc : Run.Along vmaStep (fun s c => ∀ m, s = some m → CallFits m c) (some VmaManager.new)
      calls) :
    ∃ m, Run.exec vmaStep (some VmaManager.new) calls = some m ∧ TableOk m := by
  have hinv : ∃ m, Run.exec vmaStep (some VmaManager.new) calls = some m ∧ Holds m := by
    refine @Run.exec_invariant_along _ _ vmaStep _ (fun s => ∃ m, s = some m ∧ Holds m) ?_ _
      ⟨_, rfl, [], rep_new, ordered_nil⟩ _ hc
    rintro s c ⟨m, rfl, hm⟩ hfits
    exact run_holds hm (hfits m rfl)
  obtain ⟨m, hm, hholds⟩ := hinv
  exact ⟨m, hm, hholds.tableOk⟩

/-- A data area. -/
def dataArea (start stop : ℕ) : VmaEntry :=
  { startVaddr := start, endVaddr := stop, perms := ⟨true, true, false⟩, regionType := .data,
    backingOffset := 0, cow := false }

/-- What is in a table with the areas `x` and `y`. -/
theorem eq_of_two {m : VmaManager} {x y e : VmaEntry} {i : ℕ} (h0 : m.entries 0 = some x)
    (h1 : m.entries 1 = some y) (h2 : ∀ j, m.entries (j + 2) = none) (he : m.entries i = some e) :
    e = x ∨ e = y := by
  rcases i with - | - | i
  · rw [h0] at he
    exact Or.inl (Option.some.inj he).symm
  · rw [Nat.zero_add, h1] at he
    exact Or.inr (Option.some.inj he).symm
  · rw [h2] at he
    cases he

/-- Two areas, and a third one between them. -/
def mergedInto : List VmaCall :=
  [.insert (dataArea 0x1000 0x2000), .insert (dataArea 0x4000 0x5000),
    .insert (dataArea 0x2000 0x3000)]

/-- The third area is merged into the first. -/
theorem tableOk_run_merged : ∃ m, Run.exec vmaStep (some VmaManager.new) mergedInto = some m ∧
    TableOk m ∧ m.len = 2 ∧ m.entries 0 = some (dataArea 0x1000 0x3000) := by
  have hmerged : (Run.exec vmaStep (some VmaManager.new) mergedInto).map (fun m =>
      (m.len, m.entries 0)) = some (2, some (dataArea 0x1000 0x3000)) := rfl
  suffices hok : ∃ m, Run.exec vmaStep (some VmaManager.new) mergedInto = some m ∧ TableOk m by
    obtain ⟨m, hm, hok⟩ := hok
    rw [hm, Option.map_some, Option.some.injEq, Prod.mk.injEq] at hmerged
    exact ⟨m, hm, hok, hmerged⟩
  refine tableOk_run _ ⟨?_, ?_, ?_, trivial⟩
  · intro m hm
    cases hm
    intro _ _ _ i p hp
    cases hp
  · intro m hm _ _ _ i p hp hend
    have hentries : m.entries = Function.update (fun _ => none) 0 (some (dataArea 0x1000 0x2000)) := by
      cases hm
      rfl
    rw [hentries] at hp
    by_cases hi : i = 0
    · subst hi
      rw [Function.update_self] at hp
      cases hp
      exact absurd hend (by decide)
    · rw [Function.update_of_ne hi] at hp
      cases hp
  · -- the next area starts behind the end
    intro m hm _ _ _ i p _ _ _ j n hn hlt
    have hentries : m.entries 0 = some (dataArea 0x1000 0x2000) ∧
        m.entries 1 = some (dataArea 0x4000 0x5000) ∧ ∀ j, m.entries (j + 2) = none := by
      cases hm
      exact ⟨rfl, rfl, fun _ => rfl⟩
    obtain ⟨h0, h1, h2⟩ := hentries
    rcases eq_of_two h0 h1 h2 hn with rfl | rfl
    · exact absurd hlt (by decide)
    · decide

/-- **An area that is merged into its predecessor overlaps the next one.** -/
theorem insert_overlaps : ∃ m, Run.exec vmaStep (some VmaManager.new)
    [.insert (dataArea 0x1000 0x2000), .insert (dataArea 0x3000 0x4000),
      .insert (dataArea 0x2000 0x4000)] = some m ∧ ¬ TableOk m := by
  have hrun : ∃ m, Run.exec vmaStep (some VmaManager.new)
      [.insert (dataArea 0x1000 0x2000), .insert (dataArea 0x3000 0x4000),
        .insert (dataArea 0x2000 0x4000)] = some m ∧
      m.entries 0 = some (dataArea 0x1000 0x4000) ∧ m.entries 1 = some (dataArea 0x3000 0x4000) :=
    ⟨_, rfl, rfl, rfl⟩
  obtain ⟨m, hm, h0, h1⟩ := hrun
  refine ⟨m, hm, fun hok => ?_⟩
  exact hok.disjoint 0 1 _ _ (by decide) h0 h1 0x3000 (by decide)

end QuackOS.Vm
