import QuackOS.Vm.PageFault

/-!
# Tables in any order

Calls that are given the wrong areas leave a table whose areas overlap or are out of order, and the
calls after it work on that table.  Whatever the order is, no slot below `len` is empty, so that no
call panics.

* `VmaManager.Filled` — the invariant: the slots in use hold areas, and no others do;
* `Kept` — a call returns, and the table it leaves is filled;
* `Filled.insert`, `Filled.remove`, `Filled.brk`, `Filled.locate`, ... — **every call on a filled
  table returns and leaves one**.
-/

namespace QuackOS.Vm

open VmaManager

/-- The slots below `len` hold areas, in any order, and no others do. -/
def VmaManager.Filled (m : VmaManager) : Prop := ∃ L, Rep m L

/-- The call returns, and the table is filled after it. -/
def Kept {α : Type} (run : Option (VmaManager × α)) : Prop :=
  ∃ m r, run = some (m, r) ∧ m.Filled

theorem filled_new : VmaManager.new.Filled := ⟨[], rep_new⟩

section Lookups

variable {m : VmaManager} {i vaddr : ℕ}

theorem VmaManager.Filled.len_le (h : m.Filled) : m.len ≤ maxVmaEntries := by
  obtain ⟨L, hL⟩ := h
  rw [hL.len_eq]
  exact hL.length_le

/-- The areas around a slot in use. -/
theorem VmaManager.Filled.around (h : m.Filled) (hi : i < m.len) :
    ∃ A e B, Rep m (A ++ e :: B) ∧ A.length = i := by
  obtain ⟨L, hL⟩ := h
  have hi' : i < L.length := hL.len_eq ▸ hi
  refine ⟨L.take i, L[i], L.drop (i + 1), ?_, ?_⟩
  · rwa [← List.drop_eq_getElem_cons, List.take_append_drop]
  · rw [List.length_take, Nat.min_eq_left (Nat.le_of_lt hi')]

theorem VmaManager.Filled.entry (h : m.Filled) (hi : i < m.len) : ∃ e, m.entry i = some e := by
  obtain ⟨A, e, B, hrep, rfl⟩ := h.around hi
  exact ⟨e, hrep.entry⟩

theorem VmaManager.Filled.setEntry (h : m.Filled) (hi : i < m.len) (e : VmaEntry) :
    ∃ m', m.setEntry i e = some m' ∧ m'.Filled ∧ m'.len = m.len := by
  obtain ⟨A, x, B, hrep, rfl⟩ := h.around hi
  obtain ⟨m', hm', hrep'⟩ := hrep.setEntry e
  refine ⟨m', hm', ⟨_, hrep'⟩, ?_⟩
  rw [hrep'.len_eq, hrep.len_eq, List.length_append, List.length_append, List.length_cons,
    List.length_cons]

/-- A search for the first entry with a property finds a slot in use, if any. -/
theorem VmaManager.Filled.position (h : m.Filled) (p : VmaEntry → Bool) :
    ∃ r, m.position p = some r ∧ ∀ i, r = some i → i < m.len := by
  obtain ⟨L, hL⟩ := h
  rcases hL.position p with ⟨hpos, -⟩ | ⟨A, e, B, rfl, hpos, -, -⟩
  · refine ⟨none, hpos, fun i hi => ?_⟩
    cases hi
  · refine ⟨some A.length, hpos, fun i hi => ?_⟩
    obtain rfl := Option.some.inj hi
    rw [hL.len_eq, List.length_append, List.length_cons]
    omega

/-- `bsearch` ends at a slot in use, if any. -/
theorem VmaManager.Filled.bsearch (h : m.Filled) (vaddr : ℕ) :
    ∃ r, m.bsearch vaddr = some r ∧ ∀ i, r = some i → i < m.len := by
  have htest : ∀ i < m.len, ∃ b, startsBelow m vaddr i = some b := by
    intro i hi
    obtain ⟨e, he⟩ := h.entry hi
    exact ⟨_, by rw [startsBelow, he, Option.map_some]⟩
  obtain ⟨r, hr, hin⟩ := @Bisect.lastLoop_ends _ (m.len + 1) 0 m.len none htest (by omega)
  refine ⟨r, ?_, fun i hi => ?_⟩
  · rw [VmaManager.bsearch, bsearchLoop_eq, hr]
  · rcases hin i hi with hnone | hlt
    · cases hnone
    · exact hlt

theorem VmaManager.Filled.find (h : m.Filled) (vaddr : ℕ) : ∃ r, m.find vaddr = some r := by
  rw [VmaManager.find]
  split
  · exact ⟨none, rfl⟩
  · obtain ⟨r, hr, hlt⟩ := h.bsearch vaddr
    rw [hr]
    cases r with
    | none => exact ⟨none, rfl⟩
    | some i =>
      obtain ⟨e, he⟩ := h.entry (hlt i rfl)
      simp only [he, Option.bind_eq_bind, Option.bind_some]
      exact ⟨_, rfl⟩

end Lookups

/-! ## Insertion -/

section Insert

variable {m : VmaManager} {pos : ℕ}

theorem VmaManager.Filled.insertNew (h : m.Filled) (hpos : pos ≤ m.len) (hroom : m.len < maxVmaEntries)
    (e : VmaEntry) : Kept (m.insertNew pos e) := by
  obtain ⟨L, hL⟩ := h
  have hlen := hL.len_eq
  have hsplit : L.take pos ++ L.drop pos = L := List.take_append_drop pos L
  have htake : (L.take pos).length = pos := by
    rw [List.length_take, Nat.min_eq_left (by omega)]
  rw [← hsplit] at hL
  obtain ⟨m', hm', hrep⟩ := hL.insertNew (by rw [hsplit]; omega) e
  rw [htake] at hm'
  exact ⟨m', _, hm', _, hrep⟩

theorem VmaManager.Filled.insertBefore (h : m.Filled) (hpos : pos ≤ m.len)
    (hroom : m.len < maxVmaEntries) (e : VmaEntry) : Kept (m.insertBefore pos e) := by
  unfold VmaManager.insertBefore
  split
  · rename_i hlt
    obtain ⟨next, hnext⟩ := h.entry hlt
    simp only [hnext, Option.bind_eq_bind, Option.bind_some]
    split
    · exact ⟨m, _, rfl, h⟩
    · split
      · obtain ⟨m', hm', hfilled, -⟩ := h.setEntry hlt { next with startVaddr := e.startVaddr }
        rw [hm']
        exact ⟨m', _, rfl, hfilled⟩
      · exact h.insertNew hpos hroom e
  · exact h.insertNew hpos hroom e

theorem VmaManager.Filled.insertAt (h : m.Filled) (hpos : pos ≤ m.len)
    (hroom : m.len < maxVmaEntries) (e : VmaEntry) : Kept (m.insertAt pos e) := by
  unfold VmaManager.insertAt
  split
  · rename_i hlt
    have hprev : pos - 1 < m.len := by omega
    obtain ⟨prev, hentry⟩ := h.entry hprev
    simp only [hentry, Option.bind_eq_bind, Option.bind_some]
    split
    · exact ⟨m, _, rfl, h⟩
    · split
      · obtain ⟨m', hm', hfilled, -⟩ :=
          h.setEntry hprev { prev with endVaddr := max prev.endVaddr e.endVaddr }
        rw [hm']
        exact ⟨m', _, rfl, hfilled⟩
      · exact h.insertBefore hpos hroom e
  · exact h.insertBefore hpos hroom e

theorem VmaManager.Filled.insert (h : m.Filled) (e : VmaEntry) : Kept (m.insert e) := by
  unfold VmaManager.insert
  split
  · exact ⟨m, _, rfl, h⟩
  · split
    · exact ⟨m, _, rfl, h⟩
    · rename_i hroom
      obtain ⟨r, hr, hlt⟩ := h.position fun x => x.startVaddr > e.startVaddr
      rw [hr, Option.bind_eq_bind, Option.bind_some]
      refine h.insertAt ?_ (by omega) e
      cases r with
      | none => exact le_rfl
      | some i => exact Nat.le_of_lt (hlt i rfl)

/-- Areas are inserted until one is refused. -/
theorem VmaManager.Filled.insertAll (h : m.Filled) (es : List VmaEntry) : Kept (insertAll es m) := by
  induction es generalizing m with
  | nil => exact ⟨m, _, rfl, h⟩
  | cons e es ih =>
    obtain ⟨m', r, hm', hfilled⟩ := h.insert e
    rw [VmaManager.insertAll, hm', Option.bind_eq_bind, Option.bind_some]
    cases r with
    | error err => exact ⟨m', _, rfl, hfilled⟩
    | ok _ => exact ih hfilled

end Insert

/-! ## Removal, growth and the heap -/

section Edits

variable {m : VmaManager} {start stop : ℕ}

theorem VmaManager.Filled.removeLoop (fuel : ℕ) : ∀ {m : VmaManager} {i : ℕ}, m.Filled →
    m.len - i < fuel → Kept (removeLoop start stop fuel i m) := by
  induction fuel with
  | zero =>
    intro m i _ hfuel
    omega
  | succ fuel ih =>
    intro m i h hfuel
    rw [VmaManager.removeLoop]
    split
    · rename_i hi
      obtain ⟨A, e, B, hrep, rfl⟩ := h.around hi
      -- an entry that is cut keeps its place
      have hcut : ∀ e', Kept ((m.setEntry A.length e').bind
          fun m => VmaManager.removeLoop start stop fuel (A.length + 1) m) := by
        intro e'
        obtain ⟨m', hm', hfilled, hlen⟩ := h.setEntry hi e'
        rw [hm', Option.bind_some]
        exact ih hfilled (by omega)
      rw [hrep.entry, Option.bind_eq_bind, Option.bind_some]
      split
      · exact ⟨m, _, rfl, h⟩
      · split
        · obtain ⟨m', hm', hrep'⟩ := hrep.removeAt
          have hlen := hrep.len_eq
          have hlen' := hrep'.len_eq
          rw [List.length_append, List.length_cons] at hlen
          rw [List.length_append] at hlen'
          rw [hm', Option.bind_eq_bind, Option.bind_some]
          exact ih ⟨_, hrep'⟩ (by omega)
        · split
          · obtain ⟨m', hm', hfilled, hlen⟩ := h.setEntry hi { e with endVaddr := start }
            simp only [hm', Option.bind_eq_bind, Option.bind_some]
            split
            · exact ⟨m', _, rfl, hfilled⟩
            · exact hfilled.insertNew (by omega) (by omega) _
          · split
            · exact hcut _
            · exact hcut _
    · exact ⟨m, _, rfl, h⟩

theorem VmaManager.Filled.remove (h : m.Filled) (start stop : ℕ) : Kept (m.remove start stop) := by
  unfold VmaManager.remove
  split
  · exact ⟨m, _, rfl, h⟩
  · obtain ⟨r, hr, -⟩ := h.position fun e => e.endVaddr > start
    rw [findIndexTouching, hr, Option.bind_eq_bind, Option.bind_some]
    cases r with
    | none => exact ⟨m, _, rfl, h⟩
    | some i => exact VmaManager.Filled.removeLoop _ h (by omega)

theorem VmaManager.Filled.extendStack (h : m.Filled) (newStart : ℕ) :
    Kept (m.extendStack newStart) := by
  unfold VmaManager.extendStack
  obtain ⟨r, hr, hlt⟩ := h.position fun e => e.regionType = .stack
  rw [hr, Option.bind_eq_bind, Option.bind_some]
  cases r with
  | none => exact ⟨m, _, rfl, h⟩
  | some i =>
    obtain ⟨e, he⟩ := h.entry (hlt i rfl)
    obtain ⟨hit, hover, -⟩ :=
      h.position fun x => newStart < x.endVaddr && e.startVaddr > x.startVaddr
    obtain ⟨m', hm', hfilled, -⟩ := h.setEntry (hlt i rfl) { e with startVaddr := newStart }
    simp only [he, overlaps, hover, hm', Option.bind_eq_bind, Option.bind_some, pure]
    split
    · exact ⟨m, _, rfl, h⟩
    · split
      · exact ⟨m, _, rfl, h⟩
      · exact ⟨m', _, rfl, hfilled⟩

theorem VmaManager.Filled.brk (h : m.Filled) (newBrk : ℕ) : Kept (m.brk newBrk) := by
  have hle := h.len_le
  have hindex : m.heapIndex = some (Slots.position m.len m.entries (·.regionType = .heap)) :=
    if_neg (by omega)
  rw [VmaManager.brk, hindex, Option.bind_eq_bind, Option.bind_some]
  cases hpos : Slots.position m.len m.entries (·.regionType = .heap) with
  | none => exact ⟨m, _, rfl, h⟩
  | some i =>
    obtain ⟨heap, hheap⟩ := h.entry (Slots.position_eq_some.mp hpos).2.1
    simp only [hheap, Option.bind_eq_bind, Option.bind_some]
    split
    · exact ⟨m, _, rfl, h⟩
    · split
      · exact ⟨m, _, rfl, h⟩
      · obtain ⟨m₁, r₁, hremove, h₁⟩ := h.remove heap.startVaddr heap.endVaddr
        rw [hremove, Option.bind_some]
        cases r₁ with
        | error err => exact ⟨m₁, _, rfl, h₁⟩
        | ok _ =>
          simp only
          split
          · obtain ⟨m₂, r₂, hinsert, h₂⟩ := h₁.insert (heap.movedTo newBrk)
            rw [hinsert, Option.bind_some]
            cases r₂ with
            | error err => exact ⟨m₂, _, rfl, h₂⟩
            | ok _ => exact ⟨m₂, _, rfl, h₂⟩
          · exact ⟨m₁, _, rfl, h₁⟩

end Edits

/-! ## The search for the area of a fault -/

section Search

variable {m : VmaManager}

/-- A search that failed has no area to say anything of. -/
theorem error_vacuous {err : MmError} {P : VmaEntry → Prop} :
    ∀ x, Except.error err = .ok x → P x := by
  intro x hx
  cases hx

theorem VmaManager.Filled.checkStackExpansion (h : m.Filled) (vaddr : ℕ) :
    ∃ m' r, m.checkStackExpansion vaddr = some (m', r) ∧ m'.Filled ∧
      ∀ x, r = .ok x → m'.find vaddr = some (some x) := by
  have hle := h.len_le
  obtain ⟨r, hr⟩ := h.find vaddr
  obtain ⟨stack, hstack⟩ : ∃ stack, m.findStackToExtend vaddr = some stack := by
    rw [findStackToExtend, hr, Option.bind_eq_bind, Option.bind_some]
    cases r with
    | some e => exact ⟨_, rfl⟩
    | none => exact ⟨_, if_neg (by omega)⟩
  rw [VmaManager.checkStackExpansion, hstack, Option.bind_eq_bind, Option.bind_some]
  cases stack with
  | none => exact ⟨m, _, rfl, h, error_vacuous⟩
  | some stack =>
    simp only
    split
    · exact ⟨m, _, rfl, h, error_vacuous⟩
    · obtain ⟨m', r', hextend, h'⟩ := h.extendStack (pageStart vaddr)
      rw [hextend, Option.bind_eq_bind, Option.bind_some]
      cases r' with
      | error err => exact ⟨m', _, rfl, h', error_vacuous⟩
      | ok _ =>
        obtain ⟨r₂, hr₂⟩ := h'.find vaddr
        simp only [hr₂, Option.bind_some]
        cases r₂ with
        | none => exact ⟨m', _, rfl, h', error_vacuous⟩
        | some e =>
          refine ⟨m', _, rfl, h', fun x hx => ?_⟩
          rw [hr₂, Except.ok.inj hx]

/-- **The area that the search returns is the one that is found afterwards.** -/
theorem VmaManager.Filled.locate (h : m.Filled) (vaddr : ℕ) :
    ∃ m' r, m.locate vaddr = some (m', r) ∧ m'.Filled ∧
      ∀ x, r = .ok x → m'.find vaddr = some (some x) := by
  obtain ⟨r, hr⟩ := h.find vaddr
  have hguard : m.findGuard vaddr = some (r.filter (·.isGuard)) := by
    rw [findGuard, hr]
    rfl
  rw [VmaManager.locate, hguard, Option.bind_eq_bind, Option.bind_some]
  cases hg : r.filter (·.isGuard) with
  | some e => exact ⟨m, _, rfl, h, error_vacuous⟩
  | none =>
    simp only [hr, Option.bind_some]
    cases r with
    | some v =>
      refine ⟨m, _, rfl, h, fun x hx => ?_⟩
      rw [hr, Except.ok.inj hx]
    | none => exact h.checkStackExpansion vaddr

end Search

end QuackOS.Vm
