import QuackOS.Vm.VmaTable
import QuackOS.Lib.Bisect
import QuackOS.Lib.Intervals

/-!
# What a call makes of the areas

The table of a process holds an ordered list of areas.  Each call that changes the table is
specified by the list it leaves and the result it returns, one constructor for each way it can
end.

* `Ordered` — the areas are not empty, and each ends before the next starts;
* `Lists.find_spec` — a lookup finds the one area that contains an address;
* `Insertion`, `Removal`, `Splitting`, `Growth` — the ways `insert`, `remove`, `split_at` and
  `extend_stack` can end, and `insert_spec`, ... that they end so.
-/

namespace QuackOS.Vm

open VmaManager

/-! ## Lists of areas -/

/-- The areas of a list are not empty, and each ends before the next starts. -/
structure Ordered (L : List VmaEntry) : Prop where
  nonempty : ∀ e ∈ L, e.startVaddr < e.endVaddr
  apart : L.Pairwise fun a b => a.endVaddr ≤ b.startVaddr

section Lists

variable {A B L : List VmaEntry} {e : VmaEntry}

/-- An area in the middle of others. -/
theorem ordered_middle : Ordered (A ++ e :: B) ↔ Ordered (A ++ B) ∧ e.startVaddr < e.endVaddr ∧
    (∀ a ∈ A, a.endVaddr ≤ e.startVaddr) ∧ ∀ b ∈ B, e.endVaddr ≤ b.startVaddr := by
  constructor
  · rintro ⟨hne, hap⟩
    have hsub : (A ++ B).Sublist (A ++ e :: B) := (List.sublist_cons_self e B).append_left A
    obtain ⟨-, hright, hcross⟩ := List.pairwise_append.mp hap
    refine ⟨⟨fun x hx => hne x (hsub.subset hx), hap.sublist hsub⟩, hne e (by simp), ?_, ?_⟩
    · exact fun a ha => hcross a ha e (List.mem_cons_self ..)
    · exact (List.pairwise_cons.mp hright).1
  · rintro ⟨⟨hne, hap⟩, he, hA, hB⟩
    obtain ⟨hleft, hright, hcross⟩ := List.pairwise_append.mp hap
    constructor
    · intro x hx
      rcases List.mem_append.mp hx with hx | hx
      · exact hne x (List.mem_append_left B hx)
      · rcases List.mem_cons.mp hx with rfl | hx
        · exact he
        · exact hne x (List.mem_append_right A hx)
    · refine List.pairwise_append.mpr ⟨hleft, List.pairwise_cons.mpr ⟨hB, hright⟩, ?_⟩
      intro a ha b hb
      rcases List.mem_cons.mp hb with rfl | hb
      · exact hA a ha
      · exact hcross a ha b hb

theorem ordered_nil : Ordered [] := ⟨(fun _ h => nomatch h), List.Pairwise.nil⟩

/-- The front of an area, in its place. -/
theorem Ordered.endAt (h : Ordered (A ++ e :: B)) {v : ℕ} (hlo : e.startVaddr < v)
    (hhi : v ≤ e.endVaddr) : Ordered (A ++ { e with endVaddr := v } :: B) := by
  obtain ⟨hrest, -, hA, hB⟩ := ordered_middle.mp h
  refine ordered_middle.mpr ⟨hrest, hlo, hA, fun b hb => ?_⟩
  exact Nat.le_trans hhi (hB b hb)

/-- The back of an area, in its place. -/
theorem Ordered.startAt (h : Ordered (A ++ e :: B)) {v : ℕ} (hlo : e.startVaddr ≤ v)
    (hhi : v < e.endVaddr) : Ordered (A ++ { e with startVaddr := v } :: B) := by
  obtain ⟨hrest, -, hA, hB⟩ := ordered_middle.mp h
  refine ordered_middle.mpr ⟨hrest, hhi, fun a ha => ?_, hB⟩
  exact Nat.le_trans (hA a ha) hlo

/-- An area with a hole: its front and its back, in its place. -/
theorem Ordered.hole (h : Ordered (A ++ e :: B)) {start stop : ℕ} (hlo : e.startVaddr < start)
    (hmid : start ≤ stop) (hhi : stop < e.endVaddr) :
    Ordered (A ++ [{ e with endVaddr := start }] ++ { e with startVaddr := stop } :: B) := by
  have hleft := h.endAt hlo (Nat.le_trans hmid (Nat.le_of_lt hhi))
  obtain ⟨-, -, hA, hB⟩ := ordered_middle.mp h
  rw [List.append_cons] at hleft
  refine ordered_middle.mpr ⟨hleft, hhi, fun a ha => ?_, hB⟩
  show a.endVaddr ≤ stop
  rcases List.mem_append.mp ha with ha | ha
  · have := hA a ha
    omega
  · rw [List.mem_singleton.mp ha]
    exact hmid

end Lists

/-- What the table holds determines it. -/
theorem VmaManager.Rep.unique {m m' : VmaManager} {L : List VmaEntry} (h : Rep m L) (h' : Rep m' L) :
    m = m' := by
  obtain ⟨f, n⟩ := m
  obtain ⟨f', n'⟩ := m'
  have hf : f = f' := by
    funext i
    exact (h.slots i).trans (h'.slots i).symm
  have hn : n = n' := h.len_eq.trans h'.len_eq.symm
  rw [hf, hn]

/-! ## Lookups -/

@[simp] theorem VmaEntry.contains_eq_true {e : VmaEntry} {vaddr : ℕ} :
    e.contains vaddr = true ↔ e.startVaddr ≤ vaddr ∧ vaddr < e.endVaddr := by
  simp [VmaEntry.contains]

@[simp] theorem VmaEntry.contains_eq_false {e : VmaEntry} {vaddr : ℕ} :
    e.contains vaddr = false ↔ vaddr < e.startVaddr ∨ e.endVaddr ≤ vaddr := by
  rw [VmaEntry.contains, Bool.and_eq_false_iff, decide_eq_false_iff_not, decide_eq_false_iff_not]
  omega

section Lookups

variable {m : VmaManager} {L : List VmaEntry} {vaddr : ℕ}

theorem Ordered.unique (h : Ordered L) {x y : VmaEntry} (hx : x ∈ L) (hy : y ∈ L)
    (hcx : x.contains vaddr = true) (hcy : y.contains vaddr = true) : x = y := by
  have hord : Intervals.InOrder VmaEntry.startVaddr VmaEntry.endVaddr L := h.apart
  exact hord.unique hx hy (VmaEntry.contains_eq_true.mp hcx) (VmaEntry.contains_eq_true.mp hcy)

/-- The test of the binary search at an index. -/
def startsBelow (m : VmaManager) (vaddr i : ℕ) : Option Bool :=
  (m.entry i).map fun e => e.startVaddr ≤ vaddr

/-- The loop of `bsearch` is a binary search. -/
theorem bsearchLoop_eq (m : VmaManager) (vaddr n lo hi : ℕ) (best : Option ℕ) :
    m.bsearchLoop vaddr n lo hi best = Bisect.lastLoop (startsBelow m vaddr) n lo hi best := by
  induction n generalizing lo hi best with
  | zero => rfl
  | succ n ih =>
    rw [bsearchLoop, Bisect.lastLoop]
    split
    · dsimp only
      cases he : m.entry ((lo + hi) / 2) with
      | none =>
        rw [startsBelow, he]
        rfl
      | some e =>
        rw [startsBelow, he]
        change (if e.startVaddr ≤ vaddr then _ else _) =
          if decide (e.startVaddr ≤ vaddr) = true then _ else _
        simp only [decide_eq_true_eq, ih]
    · rfl

/-- The binary search finds the last area that starts at the address or below it. -/
theorem VmaManager.Lists.bsearch_spec (h : Lists m L) (hord : Ordered L) (vaddr : ℕ) :
    (m.bsearch vaddr = some none ∧ ∀ x ∈ L, vaddr < x.startVaddr) ∨
      ∃ A e B, L = A ++ e :: B ∧ m.bsearch vaddr = some (some A.length) ∧ e.startVaddr ≤ vaddr ∧
        ∀ b ∈ B, vaddr < b.startVaddr := by
  -- the areas that start at the address or below it stand in front of the others
  have hsorted : L.Pairwise fun a b => decide (b.startVaddr ≤ vaddr) = true →
      decide (a.startVaddr ≤ vaddr) = true := by
    refine hord.apart.imp_of_mem fun {a b} ha _ hab hb => ?_
    have hne := hord.nonempty a ha
    rw [decide_eq_true_eq] at hb ⊢
    omega
  obtain ⟨A, B, rfl, hA, hB⟩ := Bisect.exists_cut hsorted
  have hlen := h.len_eq
  rw [List.length_append] at hlen
  have htest : ∀ i, 0 ≤ i → i < m.len → startsBelow m vaddr i = some (decide (i < A.length)) := by
    intro i _ hi
    have hin : i < (A ++ B).length := h.len_eq ▸ hi
    have hentry : m.entry i = some (A ++ B)[i] := by
      rw [VmaManager.entry, if_pos (Nat.lt_of_lt_of_le hin h.length_le), h.slots i hi,
        List.getElem?_eq_getElem hin]
    rw [startsBelow, hentry, Option.map_some]
    by_cases hlt : i < A.length
    · rw [List.getElem_append_left hlt, decide_eq_true hlt]
      exact congrArg some (hA _ (List.getElem_mem hlt))
    · rw [List.getElem_append_right (Nat.le_of_not_lt hlt), decide_eq_false hlt]
      exact congrArg some (hB _ (List.getElem_mem _))
  have hrun : m.bsearch vaddr = some (if 0 < A.length then some (A.length - 1) else none) := by
    rw [bsearch, bsearchLoop_eq, Bisect.lastLoop_eq htest (Nat.zero_le _) (by omega) (by omega)]
  have habove : ∀ b ∈ B, vaddr < b.startVaddr := fun b hb => by
    have hfalse := hB b hb
    rw [decide_eq_false_iff_not] at hfalse
    omega
  rcases List.eq_nil_or_concat A with rfl | ⟨A', e, rfl⟩
  · exact .inl ⟨hrun, habove⟩
  · refine .inr ⟨A', e, B, by simp, ?_, by simpa using hA e (by simp), habove⟩
    rw [hrun, if_pos (by simp)]
    simp

/-- **A lookup finds the area that contains the address**, and `find_index_containing` its
index. -/
theorem VmaManager.Lists.find_spec (h : Lists m L) (hord : Ordered L) (vaddr : ℕ) :
    (m.find vaddr = some none ∧ m.findIndexContaining vaddr = some none ∧
        ∀ x ∈ L, x.contains vaddr = false) ∨
      ∃ A e B, L = A ++ e :: B ∧ m.find vaddr = some (some e) ∧
        m.findIndexContaining vaddr = some (some A.length) ∧ e.contains vaddr = true := by
  by_cases hzero : m.len = 0
  · obtain rfl : L = [] := List.eq_nil_of_length_eq_zero (h.len_eq.symm.trans hzero)
    have hfind : m.find vaddr = some none := if_pos hzero
    refine Or.inl ⟨hfind, ?_, fun _ hx => nomatch hx⟩
    rw [VmaManager.findIndexContaining, hfind]
    rfl
  rcases h.bsearch_spec hord vaddr with ⟨hb, hall⟩ | ⟨A, e, B, rfl, hb, hstart, hB⟩
  · have hfind : m.find vaddr = some none := by
      rw [VmaManager.find, if_neg hzero, hb]
      rfl
    refine Or.inl ⟨hfind, ?_, fun x hx => ?_⟩
    · rw [VmaManager.findIndexContaining, hfind]
      rfl
    · have := hall x hx
      exact VmaEntry.contains_eq_false.mpr (by omega)
  · have hfind : m.find vaddr = some (if e.contains vaddr then some e else none) := by
      rw [VmaManager.find, if_neg hzero, hb, Option.bind_eq_bind, Option.bind_some]
      simp only [h.entry, Option.bind_eq_bind, Option.bind_some, pure]
    cases hc : e.contains vaddr with
    | true =>
      rw [hc, if_pos rfl] at hfind
      refine Or.inr ⟨A, e, B, rfl, hfind, ?_, hc⟩
      rw [VmaManager.findIndexContaining, hfind]
      exact hb
    | false =>
      rw [hc, if_neg Bool.false_ne_true] at hfind
      refine Or.inl ⟨hfind, ?_, fun x hx => ?_⟩
      · rw [VmaManager.findIndexContaining, hfind]
        rfl
      · obtain ⟨hrest, -, hA, -⟩ := ordered_middle.mp hord
        rcases List.mem_append.mp hx with hx | hx
        · have := hA x hx
          exact VmaEntry.contains_eq_false.mpr (by omega)
        · rcases List.mem_cons.mp hx with rfl | hx
          · exact hc
          · have := hB x hx
            exact VmaEntry.contains_eq_false.mpr (by omega)

theorem VmaManager.Rep.find_spec (h : Rep m L) (hord : Ordered L) (vaddr : ℕ) :
    (m.find vaddr = some none ∧ m.findIndexContaining vaddr = some none ∧
        ∀ x ∈ L, x.contains vaddr = false) ∨
      ∃ A e B, L = A ++ e :: B ∧ m.find vaddr = some (some e) ∧
        m.findIndexContaining vaddr = some (some A.length) ∧ e.contains vaddr = true :=
  h.lists.find_spec hord vaddr

end Lookups

/-! ## Insertion -/

/-- The call returns `r` and leaves the areas `L'`, as `P` says. -/
def Ends {α : Type} (run : Option (VmaManager × Except MmError α))
    (P : List VmaEntry → Except MmError α → Prop) : Prop :=
  ∃ m r L, run = some (m, r) ∧ Rep m L ∧ P L r

/-- Two areas, the first right in front of the second, that are made one. -/
def VmaEntry.Joins (a b : VmaEntry) : Prop := a.endVaddr = b.startVaddr ∧ a.canMerge b = true

/-- How `insert` ends. -/
inductive Insertion (L : List VmaEntry) (e : VmaEntry) : List VmaEntry → Except MmError Unit → Prop
  | empty (he : e.endVaddr ≤ e.startVaddr) : Insertion L e L (.error .invalidArgument)
  | full (he : e.startVaddr < e.endVaddr) (hlen : L.length = maxVmaEntries) :
      Insertion L e L (.error .outOfMemory)
  | overlap (he : e.startVaddr < e.endVaddr) (hlen : L.length < maxVmaEntries) {x : VmaEntry}
      (hx : x ∈ L) (hlo : x.startVaddr < e.endVaddr) (hhi : e.startVaddr < x.endVaddr)
      (hnot : ∀ p ∈ L, p.Joins e → ∃ y ∈ L, y.startVaddr = e.startVaddr) :
      Insertion L e L (.error .vmaOverlap)
  | intoPrev (he : e.startVaddr < e.endVaddr) (hlen : L.length < maxVmaEntries)
      {A B : List VmaEntry} {p : VmaEntry} (hL : L = A ++ p :: B) (hjoin : p.Joins e)
      (hB : ∀ b ∈ B, e.startVaddr < b.startVaddr) :
      Insertion L e (A ++ { p with endVaddr := e.endVaddr } :: B) (.ok ())
  | intoNext (he : e.startVaddr < e.endVaddr) (hlen : L.length < maxVmaEntries)
      {A B : List VmaEntry} {n : VmaEntry} (hL : L = A ++ n :: B) (hjoin : e.Joins n)
      (hA : ∀ a ∈ A, a.endVaddr ≤ e.startVaddr) :
      Insertion L e (A ++ { n with startVaddr := e.startVaddr } :: B) (.ok ())
  | added (he : e.startVaddr < e.endVaddr) (hlen : L.length < maxVmaEntries)
      {A B : List VmaEntry} (hL : L = A ++ B)
      (hA : ∀ a ∈ A, a.endVaddr ≤ e.startVaddr ∧ ¬ a.Joins e)
      (hB : ∀ b ∈ B, e.endVaddr ≤ b.startVaddr ∧ ¬ e.Joins b) :
      Insertion L e (A ++ e :: B) (.ok ())

section Insert

variable {m : VmaManager} {A B L : List VmaEntry} {e : VmaEntry}

theorem insertNew_spec (h : Rep m (A ++ B)) (hroom : (A ++ B).length < maxVmaEntries)
    (he : e.startVaddr < e.endVaddr)
    (hA : ∀ a ∈ A, a.endVaddr ≤ e.startVaddr ∧ ¬ a.Joins e)
    (hB : ∀ b ∈ B, e.endVaddr ≤ b.startVaddr ∧ ¬ e.Joins b) :
    Ends (m.insertNew A.length e) (Insertion (A ++ B) e) := by
  obtain ⟨m', hm', hrep⟩ := h.insertNew hroom e
  exact ⟨m', _, _, hm', hrep, .added he hroom rfl hA hB⟩

/-- The part of `insert` behind the check of the predecessor. -/
theorem insertBefore_spec (h : Rep m (A ++ B)) (hord : Ordered (A ++ B))
    (hroom : (A ++ B).length < maxVmaEntries) (he : e.startVaddr < e.endVaddr)
    (hA : ∀ a ∈ A, a.endVaddr ≤ e.startVaddr ∧ ¬ a.Joins e)
    (hB : ∀ b ∈ B, e.startVaddr < b.startVaddr) :
    Ends (m.insertBefore A.length e) (Insertion (A ++ B) e) := by
  have hlen := h.len_eq
  rw [List.length_append] at hlen
  unfold insertBefore
  cases B with
  | nil =>
    rw [List.length_nil] at hlen
    rw [if_neg (by omega)]
    exact insertNew_spec h hroom he hA (fun _ hb => nomatch hb)
  | cons n B =>
    rw [List.length_cons] at hlen
    rw [if_pos (by omega), h.entry, Option.bind_eq_bind, Option.bind_some]
    obtain ⟨hrest, hn, hAn, hBn⟩ := ordered_middle.mp hord
    split
    · rename_i hover
      refine ⟨m, _, _, rfl, h, .overlap he hroom (x := n) (by simp) hover ?_ ?_⟩
      · have := hB n (List.mem_cons_self ..)
        omega
      · intro p hp hjoin
        rcases List.mem_append.mp hp with hp | hp
        · exact absurd hjoin (hA p hp).2
        · -- an area behind the new one does not end where that starts
          have hstart := hB p hp
          have hne := hord.nonempty p (List.mem_append_right A hp)
          have := hjoin.1
          omega
    · rename_i hle
      split
      · rename_i hjoin
        obtain ⟨m', hm', hrep⟩ := h.setEntry { n with startVaddr := e.startVaddr }
        rw [hm']
        exact ⟨m', _, _, rfl, hrep, .intoNext he hroom rfl hjoin fun a ha => (hA a ha).1⟩
      · rename_i hjoin
        refine insertNew_spec h hroom he hA fun b hb => ?_
        rcases List.mem_cons.mp hb with rfl | hb
        · exact ⟨by omega, hjoin⟩
        · have := hBn b hb
          exact ⟨by omega, fun hj => by have := hj.1; omega⟩

/-- `insert` behind the search for the position. -/
theorem insertAt_spec (h : Rep m (A ++ B)) (hord : Ordered (A ++ B))
    (hroom : (A ++ B).length < maxVmaEntries) (he : e.startVaddr < e.endVaddr)
    (hA : ∀ a ∈ A, a.startVaddr ≤ e.startVaddr) (hB : ∀ b ∈ B, e.startVaddr < b.startVaddr) :
    Ends (m.insertAt A.length e) (Insertion (A ++ B) e) := by
  unfold insertAt
  rcases List.eq_nil_or_concat A with rfl | ⟨A, p, rfl⟩
  · exact insertBefore_spec h hord hroom he (fun _ ha => nomatch ha) hB
  · rw [List.concat_eq_append] at *
    have hsplit : A ++ [p] ++ B = A ++ p :: B := by rw [List.append_assoc]; rfl
    have hrep : Rep m (A ++ p :: B) := hsplit ▸ h
    obtain ⟨hrest, hp, hAp, hBp⟩ := ordered_middle.mp (hsplit ▸ hord)
    have hlen : (A ++ [p]).length - 1 = A.length := by
      rw [List.length_append, List.length_singleton, Nat.add_sub_cancel]
    rw [if_pos (by rw [List.length_append, List.length_singleton]; omega), hlen, hrep.entry,
      Option.bind_eq_bind, Option.bind_some]
    have hpstart := hA p (by simp)
    split
    · rename_i hover
      refine ⟨m, _, _, rfl, h, .overlap he hroom (x := p) (by simp) (by omega) hover ?_⟩
      -- an area that ends where the new one starts lies in front of `p`, or `p` starts there
      intro q hq hjoin
      have hqend := hjoin.1
      have hqne := hord.nonempty q hq
      rw [hsplit] at hq
      rcases List.mem_append.mp hq with hq | hq
      · have := hAp q hq
        exact ⟨p, by simp, by omega⟩
      · rcases List.mem_cons.mp hq with rfl | hq
        · omega
        · have := hB q hq
          omega
    · rename_i hle
      split
      · -- merged into the predecessor, without a look at the successor
        rename_i hjoin
        obtain ⟨m', hm', hrep'⟩ := hrep.setEntry { p with endVaddr := max p.endVaddr e.endVaddr }
        have hmax : max p.endVaddr e.endVaddr = e.endVaddr := by
          have := hjoin.1
          omega
        simp only [hm']
        rw [hmax] at hrep'
        exact ⟨m', _, _, rfl, hrep', .intoPrev he hroom hsplit hjoin hB⟩
      · rename_i hjoin
        refine insertBefore_spec h hord hroom he (fun a ha => ?_) hB
        rcases List.mem_append.mp ha with ha | ha
        · have := hAp a ha
          exact ⟨by omega, fun hj => by have := hj.1; omega⟩
        · rw [List.mem_singleton.mp ha]
          exact ⟨by omega, hjoin⟩

/-- **Insertion.** -/
theorem VmaManager.Rep.insert_spec (h : Rep m L) (hord : Ordered L) (e : VmaEntry) :
    Ends (m.insert e) (Insertion L e) := by
  unfold VmaManager.insert
  have hle := h.length_le
  split
  · rename_i hempty
    exact ⟨m, _, L, rfl, h, .empty (by simpa [VmaEntry.isEmpty] using hempty)⟩
  · rename_i hempty
    have he : e.startVaddr < e.endVaddr := by
      simpa [VmaEntry.isEmpty] using hempty
    rw [h.len_eq]
    split
    · rename_i hfull
      exact ⟨m, _, L, rfl, h, .full he (by omega)⟩
    · rename_i hroom
      rcases h.position (fun x => x.startVaddr > e.startVaddr) with
        ⟨hpos, hall⟩ | ⟨A, n, B, rfl, hpos, hn, hA⟩
      · rw [hpos, Option.bind_eq_bind, Option.bind_some, Option.getD_none]
        have hnil : L = L ++ [] := (List.append_nil L).symm
        rw [hnil] at h hord hroom
        have := insertAt_spec h hord (by omega) he (fun a ha => by simpa using hall a ha)
          (fun _ hb => nomatch hb)
        rwa [← hnil] at this
      · rw [hpos, Option.bind_eq_bind, Option.bind_some, Option.getD_some]
        have hn' : e.startVaddr < n.startVaddr := by simpa using hn
        refine insertAt_spec h hord (by omega) he (fun a ha => by simpa using hA a ha) ?_
        intro b hb
        obtain ⟨-, hnn, -, hB⟩ := ordered_middle.mp hord
        rcases List.mem_cons.mp hb with rfl | hb
        · exact hn'
        · have := hB b hb
          omega

end Insert

/-! ## Removal -/

/-- What is left of an area without the addresses from `start` to `stop`; the part behind them
keeps the area's offset. -/
def VmaEntry.without (start stop : ℕ) (x : VmaEntry) : List VmaEntry :=
  if x.endVaddr ≤ start ∨ stop ≤ x.startVaddr then [x]
  else
    (if x.startVaddr < start then [{ x with endVaddr := start }] else []) ++
      if stop < x.endVaddr then [{ x with startVaddr := stop }] else []

/-- How `remove` ends. -/
inductive Removal (L : List VmaEntry) (start stop : ℕ) :
    List VmaEntry → Except MmError Unit → Prop
  | empty (h : stop ≤ start) : Removal L start stop L (.error .invalidArgument)
  | noRoom (h : start < stop) (hlen : L.length = maxVmaEntries) {A B : List VmaEntry} {x : VmaEntry}
      (hL : L = A ++ x :: B) (hlo : x.startVaddr < start) (hhi : stop < x.endVaddr) :
      Removal L start stop (A ++ { x with endVaddr := start } :: B) (.error .outOfMemory)
  | cut (h : start < stop)
      (hroom : ∀ x ∈ L, x.startVaddr < start → stop < x.endVaddr → L.length < maxVmaEntries) :
      Removal L start stop (L.flatMap (VmaEntry.without start stop)) (.ok ())

section Remove

variable {m : VmaManager} {A C L : List VmaEntry} {x : VmaEntry} {start stop : ℕ}

theorem VmaEntry.without_of_apart (h : x.endVaddr ≤ start ∨ stop ≤ x.startVaddr) :
    x.without start stop = [x] := if_pos h

theorem VmaEntry.without_covered (hx : x.startVaddr < x.endVaddr) (hlo : start ≤ x.startVaddr)
    (hhi : x.endVaddr ≤ stop) : x.without start stop = [] := by
  rw [without, if_neg (by omega), if_neg (by omega), if_neg (by omega)]
  rfl

theorem VmaEntry.without_inside (h : x.startVaddr < stop) (hlo : x.startVaddr < start)
    (hhi : stop < x.endVaddr) (hend : start < x.endVaddr) :
    x.without start stop = [{ x with endVaddr := start }, { x with startVaddr := stop }] := by
  rw [without, if_neg (by omega), if_pos hlo, if_pos hhi]
  rfl

theorem VmaEntry.without_front (h : x.startVaddr < stop) (hlo : start ≤ x.startVaddr)
    (hhi : stop < x.endVaddr) : x.without start stop = [{ x with startVaddr := stop }] := by
  rw [without, if_neg (by omega), if_neg (by omega), if_pos hhi]
  rfl

theorem VmaEntry.without_back (hlo : x.startVaddr < start) (hhi : x.endVaddr ≤ stop)
    (hend : start < x.endVaddr) : x.without start stop = [{ x with endVaddr := start }] := by
  rw [without, if_neg (by omega), if_pos hlo, if_neg (by omega)]
  rfl

theorem flatMap_without_of_apart (h : ∀ x ∈ L, x.endVaddr ≤ start ∨ stop ≤ x.startVaddr) :
    L.flatMap (VmaEntry.without start stop) = L := by
  induction L with
  | nil => rfl
  | cons x L ih =>
    rw [List.flatMap_cons, VmaEntry.without_of_apart (h x (List.mem_cons_self ..)),
      ih fun y hy => h y (List.mem_cons_of_mem x hy)]
    rfl

/-- What is left lies inside the area, and is not empty. -/
theorem VmaEntry.mem_without {y : VmaEntry} (hx : x.startVaddr < x.endVaddr)
    (hy : y ∈ x.without start stop) : x.startVaddr ≤ y.startVaddr ∧ y.startVaddr < y.endVaddr ∧
      y.endVaddr ≤ x.endVaddr := by
  unfold VmaEntry.without at hy
  split at hy
  · rw [List.mem_singleton.mp hy]
    omega
  · rename_i hmeet
    rcases List.mem_append.mp hy with hy | hy
    · split at hy
      · rw [List.mem_singleton.mp hy]
        simp only
        omega
      · cases hy
    · split at hy
      · rw [List.mem_singleton.mp hy]
        simp only
        omega
      · cases hy

theorem VmaEntry.ordered_without (h : start < stop) (hx : x.startVaddr < x.endVaddr) :
    Ordered (x.without start stop) := by
  refine ⟨fun y hy => (VmaEntry.mem_without hx hy).2.1, ?_⟩
  unfold VmaEntry.without
  split
  · exact List.pairwise_singleton _ _
  · split <;> split
    · exact List.pairwise_pair.mpr (Nat.le_of_lt h)
    · exact List.pairwise_singleton _ _
    · exact List.pairwise_singleton _ _
    · exact List.Pairwise.nil

/-- What is left of ordered areas is ordered. -/
theorem Ordered.flatMap_without (hord : Ordered L) (h : start < stop) :
    Ordered (L.flatMap (VmaEntry.without start stop)) := by
  constructor
  · intro y hy
    obtain ⟨x, hx, hy⟩ := List.mem_flatMap.mp hy
    exact (VmaEntry.mem_without (hord.nonempty x hx) hy).2.1
  · refine List.pairwise_flatMap.mpr ⟨fun x hx => ?_, ?_⟩
    · exact (VmaEntry.ordered_without h (hord.nonempty x hx)).apart
    · refine List.Pairwise.imp_of_mem (fun {a b} ha hb hab y hy z hz => ?_) hord.apart
      have h1 := VmaEntry.mem_without (hord.nonempty a ha) hy
      have h2 := VmaEntry.mem_without (hord.nonempty b hb) hz
      omega

/-- A range inside one area, with room for the part behind it. -/
theorem removeLoop_inside (h : Rep m (A ++ x :: C)) (hroom : (A ++ x :: C).length < maxVmaEntries)
    (hbelow : x.startVaddr < stop) (hlo : x.startVaddr < start) (hhi : stop < x.endVaddr)
    (fuel : ℕ) :
    ∃ m', removeLoop start stop (fuel + 1) A.length m = some (m', .ok ()) ∧
      Rep m' (A ++ { x with endVaddr := start } :: { x with startVaddr := stop } :: C) := by
  obtain ⟨m', hm', hrep⟩ := h.setEntry { x with endVaddr := start }
  have hlen := h.len_eq
  have hlen' := hrep.len_eq
  rw [List.length_append, List.length_cons] at hlen hlen' hroom
  rw [List.append_cons] at hrep
  obtain ⟨m'', hm'', hrep'⟩ := hrep.insertNew (by rw [← hrep.len_eq]; omega)
    { x with startVaddr := stop }
  rw [List.length_append, List.length_singleton] at hm''
  refine ⟨m'', ?_, ?_⟩
  · rw [removeLoop, if_pos (by omega), h.entry, Option.bind_eq_bind, Option.bind_some,
      if_neg (by omega), if_neg (by omega), if_pos ⟨hlo, hhi⟩, hm']
    exact (if_neg (by omega)).trans hm''
  · rwa [List.append_assoc] at hrep'

/-- The loop of `remove` when there is room for what it splits, at the first area of `C`; the
areas from there on end behind `start`. -/
theorem removeLoop_spec {fuel : ℕ} (hfuel : C.length < fuel)
    (h : Rep m (A ++ C)) (hord : Ordered (A ++ C)) (htouch : ∀ c ∈ C, start < c.endVaddr)
    (hroom : ∀ c ∈ C, c.startVaddr < start → stop < c.endVaddr → (A ++ C).length < maxVmaEntries) :
    ∃ m', removeLoop start stop fuel A.length m = some (m', .ok ()) ∧
      Rep m' (A ++ C.flatMap (VmaEntry.without start stop)) := by
  induction fuel generalizing m A C with
  | zero => omega
  | succ fuel ih =>
    have hlen := h.len_eq
    rw [List.length_append] at hlen
    cases C with
    | nil =>
      rw [List.length_nil] at hlen
      rw [removeLoop, if_neg (by omega)]
      exact ⟨m, rfl, h⟩
    | cons e C =>
      rw [List.length_cons] at hlen hfuel
      obtain ⟨hrest, he, hA, hC⟩ := ordered_middle.mp hord
      have hestart := htouch e (List.mem_cons_self ..)
      by_cases hinside : e.startVaddr < start ∧ stop < e.endVaddr ∧ e.startVaddr < stop
      · obtain ⟨hlo, hhi, hbelow⟩ := hinside
        obtain ⟨m', hm', hrep⟩ := removeLoop_inside h
          (hroom e (List.mem_cons_self ..) hlo hhi) hbelow hlo hhi fuel
        refine ⟨m', hm', ?_⟩
        rwa [List.flatMap_cons, VmaEntry.without_inside hbelow hlo hhi hestart,
          flatMap_without_of_apart fun c hc => Or.inr (by have := hC c hc; omega)]
      rw [removeLoop, if_pos (by omega)]
      simp only [h.entry, Option.bind_eq_bind, Option.bind_some]
      have htouch' : ∀ c ∈ C, start < c.endVaddr :=
        fun c hc => htouch c (List.mem_cons_of_mem e hc)
      -- only the first area can reach over both ends of the range
      have hroom' : ∀ (A' : List VmaEntry), ∀ c ∈ C, c.startVaddr < start → stop < c.endVaddr →
          (A' ++ C).length < maxVmaEntries := by
        intro A' c hc hlo
        have := hC c hc
        omega
      -- an area that is cut keeps its place, and the loop goes on behind it
      have hcut : ∀ e', Ordered (A ++ e' :: C) → e.without start stop = [e'] →
          ∃ m', ((m.setEntry A.length e').bind fun m => removeLoop start stop fuel (A.length + 1) m) =
              some (m', .ok ()) ∧
            Rep m' (A ++ (e :: C).flatMap (VmaEntry.without start stop)) := by
        intro e' hord' hwithout
        obtain ⟨m', hm', hrep⟩ := h.setEntry e'
        rw [List.append_cons] at hrep hord'
        obtain ⟨m'', hm'', hrep'⟩ := ih (by omega) hrep hord' htouch' (hroom' _)
        rw [List.length_append, List.length_singleton] at hm''
        refine ⟨m'', ?_, ?_⟩
        · rw [hm', Option.bind_some, hm'']
        · rwa [List.flatMap_cons, hwithout, ← List.append_assoc]
      split
      · rename_i habove
        refine ⟨m, rfl, ?_⟩
        rwa [flatMap_without_of_apart]
        intro c hc
        rcases List.mem_cons.mp hc with rfl | hc
        · exact Or.inr habove
        · have := hC c hc
          exact Or.inr (by omega)
      · rename_i hbelow
        split
        · rename_i hcovered
          obtain ⟨m', hm', hrep⟩ := h.removeAt
          obtain ⟨m'', hm'', hrep'⟩ := ih (by omega) hrep hrest htouch' (hroom' _)
          refine ⟨m'', ?_, ?_⟩
          · rw [hm', Option.bind_some, hm'']
          · rwa [List.flatMap_cons, VmaEntry.without_covered he hcovered.1 hcovered.2,
              List.nil_append]
        · rename_i hnot
          rw [if_neg (by omega)]
          split
          · rename_i hfront
            exact hcut _ (hord.startAt (by omega) (by omega))
              (VmaEntry.without_front (by omega) hfront (by omega))
          · rename_i hfront
            exact hcut _ (hord.endAt (by omega) (Nat.le_of_lt hestart))
              (VmaEntry.without_back (by omega) (by omega) hestart)

/-- The loop of `remove` at an area that reaches over both ends of the range, in a full table. -/
theorem removeLoop_full {B : List VmaEntry} (h : Rep m (A ++ x :: B))
    (hlen : (A ++ x :: B).length = maxVmaEntries) (hlt : start < stop) (hlo : x.startVaddr < start)
    (hhi : stop < x.endVaddr) (fuel : ℕ) :
    ∃ m', removeLoop start stop (fuel + 1) A.length m = some (m', .error .outOfMemory) ∧
      Rep m' (A ++ { x with endVaddr := start } :: B) := by
  obtain ⟨m', hm', hrep⟩ := h.setEntry { x with endVaddr := start }
  have hlen' := hrep.len_eq
  have hmlen := h.len_eq
  rw [List.length_append, List.length_cons] at hlen hlen' hmlen
  refine ⟨m', ?_, hrep⟩
  rw [removeLoop, if_pos (by omega), h.entry, Option.bind_eq_bind, Option.bind_some,
    if_neg (by omega), if_neg (by omega), if_pos ⟨hlo, hhi⟩, hm']
  exact if_pos (by omega)

/-- **Removal.** -/
theorem VmaManager.Rep.remove_spec (h : Rep m L) (hord : Ordered L) (start stop : ℕ) :
    Ends (m.remove start stop) (Removal L start stop) := by
  unfold VmaManager.remove
  split
  · rename_i hempty
    exact ⟨m, _, L, rfl, h, .empty hempty⟩
  · rename_i hlt
    have hlt : start < stop := by omega
    rcases h.position (fun e => e.endVaddr > start) with ⟨hpos, hall⟩ | ⟨A, e, B, rfl, hpos, he, hA⟩
    · rw [findIndexTouching, hpos]
      have hbefore : ∀ x ∈ L, x.endVaddr ≤ start := by
        intro x hx
        simpa using hall x hx
      refine ⟨m, _, _, rfl, ?_, .cut hlt fun x hx hlo hhi => ?_⟩
      · rwa [flatMap_without_of_apart fun x hx => Or.inl (hbefore x hx)]
      · have := hbefore x hx
        omega
    · rw [findIndexTouching, hpos]
      have he' : start < e.endVaddr := by simpa using he
      have hA' : ∀ a ∈ A, a.endVaddr ≤ start := by
        intro a ha
        simpa using hA a ha
      obtain ⟨hrest, hne, -, hB⟩ := ordered_middle.mp hord
      have htouch : ∀ c ∈ e :: B, start < c.endVaddr := by
        intro c hc
        rcases List.mem_cons.mp hc with rfl | hc
        · exact he'
        · have h1 := hB c hc
          have h2 := hrest.nonempty c (List.mem_append_right A hc)
          omega
      have hlen := h.len_eq
      have hle := h.length_le
      by_cases hfull : (A ++ e :: B).length = maxVmaEntries ∧ e.startVaddr < start ∧ stop < e.endVaddr
      · obtain ⟨m', hm', hrep⟩ := removeLoop_full h hfull.1 hlt hfull.2.1 hfull.2.2 m.len
        exact ⟨m', _, _, hm', hrep, .noRoom hlt hfull.1 rfl hfull.2.1 hfull.2.2⟩
      · -- any other area starts behind `start` or ends in front of it
        have hroom : ∀ c ∈ A ++ e :: B, c.startVaddr < start → stop < c.endVaddr →
            (A ++ e :: B).length < maxVmaEntries := by
          intro c hc hlo hhi
          rcases List.mem_append.mp hc with hc | hc
          · have := hA' c hc
            omega
          · rcases List.mem_cons.mp hc with rfl | hc
            · omega
            · have := hB c hc
              omega
        have hfuel : (e :: B).length < m.len + 1 := by
          rw [hlen, List.length_append]
          omega
        obtain ⟨m', hm', hrep⟩ := removeLoop_spec hfuel h hord htouch
          fun c hc => hroom c (List.mem_append_right A hc)
        refine ⟨m', _, _, hm', ?_, .cut hlt hroom⟩
        rwa [List.flatMap_append, flatMap_without_of_apart fun a ha => Or.inl (hA' a ha)]

end Remove

/-! ## Splitting and growth -/

/-- How `split_at` ends. -/
inductive Splitting (L : List VmaEntry) (vaddr : ℕ) : List VmaEntry → Except MmError ℕ → Prop
  | outside (h : ∀ x ∈ L, x.contains vaddr = false) : Splitting L vaddr L (.error .noVma)
  | boundary {A B : List VmaEntry} {x : VmaEntry} (hL : L = A ++ x :: B)
      (hlo : x.startVaddr = vaddr) (hhi : vaddr < x.endVaddr) : Splitting L vaddr L (.ok A.length)
  | full (hlen : L.length = maxVmaEntries) {x : VmaEntry} (hx : x ∈ L) (hlo : x.startVaddr < vaddr)
      (hhi : vaddr < x.endVaddr) : Splitting L vaddr L (.error .outOfMemory)
  | split (hlen : L.length < maxVmaEntries) {A B : List VmaEntry} {x : VmaEntry}
      (hL : L = A ++ x :: B) (hlo : x.startVaddr < vaddr) (hhi : vaddr < x.endVaddr) :
      Splitting L vaddr (A ++ { x with endVaddr := vaddr } :: { x with startVaddr := vaddr } :: B)
        (.ok (A.length + 1))

/-- How `extend_stack` ends; the stack is the first area of that type. -/
inductive Growth (L : List VmaEntry) (newStart : ℕ) :
    List VmaEntry → Except MmError Unit → Prop
  | noStack (h : ∀ x ∈ L, x.regionType ≠ .stack) : Growth L newStart L (.error .noVma)
  | above {A B : List VmaEntry} {x : VmaEntry} (hL : L = A ++ x :: B) (hx : x.regionType = .stack)
      (hfirst : ∀ a ∈ A, a.regionType ≠ .stack) (hle : x.startVaddr ≤ newStart) :
      Growth L newStart L (.error .invalidArgument)
  | blocked {A B : List VmaEntry} {x y : VmaEntry} (hL : L = A ++ x :: B) (hx : x.regionType = .stack)
      (hfirst : ∀ a ∈ A, a.regionType ≠ .stack) (hlt : newStart < x.startVaddr) (hy : y ∈ A)
      (hend : newStart < y.endVaddr) : Growth L newStart L (.error .vmaOverlap)
  | grown {A B : List VmaEntry} {x : VmaEntry} (hL : L = A ++ x :: B) (hx : x.regionType = .stack)
      (hfirst : ∀ a ∈ A, a.regionType ≠ .stack) (hlt : newStart < x.startVaddr)
      (hA : ∀ a ∈ A, a.endVaddr ≤ newStart) :
      Growth L newStart (A ++ { x with startVaddr := newStart } :: B) (.ok ())

section Calls

variable {m : VmaManager} {L : List VmaEntry}

/-- **Splitting.** -/
theorem VmaManager.Rep.splitAt_spec (h : Rep m L) (hord : Ordered L) (vaddr : ℕ) :
    Ends (m.splitAt vaddr) (Splitting L vaddr) := by
  unfold VmaManager.splitAt
  rcases h.find_spec hord vaddr with ⟨-, hfind, hall⟩ | ⟨A, e, B, rfl, -, hfind, hc⟩
  · rw [hfind]
    exact ⟨m, _, L, rfl, h, .outside hall⟩
  · rw [hfind, Option.bind_eq_bind, Option.bind_some]
    simp only [h.entry, Option.bind_eq_bind, Option.bind_some]
    obtain ⟨hlo, hhi⟩ := VmaEntry.contains_eq_true.mp hc
    have hle := h.length_le
    split
    · rename_i hbound
      exact ⟨m, _, _, rfl, h, .boundary rfl (by omega) hhi⟩
    · rename_i hinside
      rw [h.len_eq]
      split
      · rename_i hfull
        exact ⟨m, _, _, rfl, h, .full (by omega) (x := e) (by simp) (by omega) hhi⟩
      · rename_i hroom
        obtain ⟨m', hm', hrep⟩ := h.setEntry { e with endVaddr := vaddr }
        rw [List.append_cons] at hrep
        have hlen : (A ++ [{ e with endVaddr := vaddr }] ++ B).length < maxVmaEntries := by
          simp only [List.length_append, List.length_cons, List.length_nil] at hroom ⊢
          omega
        obtain ⟨m'', hm'', hrep'⟩ := hrep.insertNew hlen { e with startVaddr := vaddr }
        rw [List.length_append, List.length_singleton] at hm''
        rw [List.append_assoc] at hrep'
        rw [hm', Option.bind_some, hm'']
        exact ⟨m'', _, _, rfl, hrep', .split (by omega) rfl (by omega) hhi⟩

/-- **Growth of the stack.** -/
theorem VmaManager.Rep.extendStack_spec (h : Rep m L) (hord : Ordered L) (newStart : ℕ) :
    Ends (m.extendStack newStart) (Growth L newStart) := by
  unfold VmaManager.extendStack
  rcases h.position (fun e => e.regionType = .stack) with
    ⟨hpos, hall⟩ | ⟨A, e, B, rfl, hpos, hstack, hfirst⟩
  · rw [hpos]
    exact ⟨m, _, L, rfl, h, .noStack fun x hx => by simpa using hall x hx⟩
  · rw [hpos, Option.bind_eq_bind, Option.bind_some]
    simp only [h.entry, Option.bind_eq_bind, Option.bind_some]
    have hstack' : e.regionType = .stack := by simpa using hstack
    have hfirst' : ∀ a ∈ A, a.regionType ≠ .stack := fun a ha => by simpa using hfirst a ha
    obtain ⟨hrest, he, hA, hB⟩ := ordered_middle.mp hord
    split
    · rename_i hle
      exact ⟨m, _, _, rfl, h, .above rfl hstack' hfirst' hle⟩
    · rename_i hlt
      rcases h.position (fun x => newStart < x.endVaddr && e.startVaddr > x.startVaddr) with
        ⟨hover, hall⟩ | ⟨A', y, B', hsplit, hover, hy, -⟩
      · have hno : m.overlaps newStart e.startVaddr = some false := by
          rw [overlaps, hover]
          rfl
        obtain ⟨m', hm', hrep⟩ := h.setEntry { e with startVaddr := newStart }
        simp only [hno, Option.bind_some, Bool.false_eq_true, if_false, hm']
        refine ⟨m', _, _, rfl, hrep, .grown rfl hstack' hfirst' (by omega) fun a ha => ?_⟩
        have h1 := hall a (by simp [ha])
        have h2 := hA a ha
        have h3 := hrest.nonempty a (List.mem_append_left B ha)
        simp only [Bool.and_eq_false_iff, decide_eq_false_iff_not] at h1
        omega
      · have hyes : m.overlaps newStart e.startVaddr = some true := by
          rw [overlaps, hover]
          rfl
        simp only [hyes, Option.bind_some, if_true]
        simp only [Bool.and_eq_true, decide_eq_true_eq] at hy
        have hyA : y ∈ A := by
          have hmem : y ∈ A ++ e :: B := hsplit ▸ List.mem_append_right A' (List.mem_cons_self ..)
          rcases List.mem_append.mp hmem with hmem | hmem
          · exact hmem
          · rcases List.mem_cons.mp hmem with rfl | hmem
            · omega
            · have := hB y hmem
              omega
        exact ⟨m, _, _, rfl, h, .blocked rfl hstack' hfirst' (by omega) hyA hy.1⟩

end Calls

/-! ## The order is kept -/

section Kept

variable {L L' : List VmaEntry}

/-- An area that is put behind one it joins ends before the next one starts. -/
def Fits (L : List VmaEntry) (e : VmaEntry) : Prop :=
  e.startVaddr < e.endVaddr → L.length < maxVmaEntries → (∀ x ∈ L, x.startVaddr ≠ e.startVaddr) →
    ∀ p ∈ L, p.Joins e → ∀ n ∈ L, e.startVaddr < n.startVaddr → e.endVaddr ≤ n.startVaddr

theorem Insertion.ordered {e : VmaEntry} {r : Except MmError Unit} (h : Insertion L e L' r)
    (hord : Ordered L) (hfits : Fits L e) : Ordered L' := by
  cases h with
  | empty | full | overlap => exact hord
  | @intoPrev he hlen A B p hL hjoin hB =>
    subst hL
    obtain ⟨hrest, hp, hA, -⟩ := ordered_middle.mp hord
    have hend := hjoin.1
    have hnostart : ∀ x ∈ A ++ p :: B, x.startVaddr ≠ e.startVaddr := by
      intro x hx
      rcases List.mem_append.mp hx with hx | hx
      · have h1 := hA x hx
        have h2 := hrest.nonempty x (List.mem_append_left B hx)
        omega
      · rcases List.mem_cons.mp hx with rfl | hx
        · omega
        · have := hB x hx
          omega
    refine ordered_middle.mpr ⟨hrest, ?_, hA, fun b hb => ?_⟩
    · show p.startVaddr < e.endVaddr
      omega
    · exact hfits he hlen hnostart p (by simp) hjoin b (by simp [hb]) (hB b hb)
  | @intoNext he hlen A B n hL hjoin hA =>
    subst hL
    obtain ⟨hrest, hn, -, hB⟩ := ordered_middle.mp hord
    refine ordered_middle.mpr ⟨hrest, ?_, hA, hB⟩
    have := hjoin.1
    show e.startVaddr < n.endVaddr
    omega
  | added he hlen hL hA hB =>
    subst hL
    exact ordered_middle.mpr ⟨hord, he, fun a ha => (hA a ha).1, fun b hb => (hB b hb).1⟩

theorem Removal.ordered {start stop : ℕ} {r : Except MmError Unit} (h : Removal L start stop L' r)
    (hord : Ordered L) : Ordered L' := by
  cases h with
  | empty => exact hord
  | noRoom hlt hlen hL hlo hhi =>
    subst hL
    exact hord.endAt hlo (by omega)
  | cut hlt => exact hord.flatMap_without hlt

theorem Splitting.ordered {vaddr : ℕ} {r : Except MmError ℕ} (h : Splitting L vaddr L' r)
    (hord : Ordered L) : Ordered L' := by
  cases h with
  | outside | boundary | full => exact hord
  | split hlen hL hlo hhi =>
    subst hL
    have := hord.hole hlo le_rfl hhi
    rwa [List.append_assoc] at this

theorem Growth.ordered {newStart : ℕ} {r : Except MmError Unit} (h : Growth L newStart L' r)
    (hord : Ordered L) : Ordered L' := by
  cases h with
  | noStack | above | blocked => exact hord
  | grown hL hx hfirst hlt hA =>
    subst hL
    obtain ⟨hrest, he, -, hB⟩ := ordered_middle.mp hord
    exact ordered_middle.mpr ⟨hrest, Nat.lt_trans hlt he, hA, hB⟩

end Kept

end QuackOS.Vm
