import QuackOS.Vm.Server
import QuackOS.Vm.VmaMap

/-!
# The heap

`handle_brk` moves the end of the heap by removing the area and inserting another one.

* `Breaking` — the ways `brk` can end, and `brk_spec`;
* `HeapIs`, `NeverLost` — the heap of a process, and what a request has to leave of it;
* `brk_iff` — **a run of requests does right by the heap exactly when each request moves the break
  down below the start, not at all, or up to where the heap can grow without meeting or touching
  another area**;
* `brk_loses_heap` — a break at the start of the heap, after which there is none.
-/

namespace QuackOS.Vm

open VmaManager Run

/-! ## The ways a request can end -/

/-- How `brk` ends; the heap is the first area of that type. -/
inductive Breaking (L : List VmaEntry) (newBrk : ℕ) : List VmaEntry → Except MmError ℕ → Prop
  | noHeap (h : ∀ x ∈ L, x.regionType ≠ .heap) : Breaking L newBrk L (.error .noVma)
  | same {A B : List VmaEntry} {x : VmaEntry} (hL : L = A ++ x :: B) (hx : x.regionType = .heap)
      (hfirst : ∀ a ∈ A, a.regionType ≠ .heap) (hb : newBrk = x.endVaddr) :
      Breaking L newBrk L (.ok newBrk)
  | below {A B : List VmaEntry} {x : VmaEntry} (hL : L = A ++ x :: B) (hx : x.regionType = .heap)
      (hfirst : ∀ a ∈ A, a.regionType ≠ .heap) (hb : newBrk < x.startVaddr) :
      Breaking L newBrk L (.error .invalidArgument)
  | emptied {A B : List VmaEntry} {x : VmaEntry} (hL : L = A ++ x :: B) (hx : x.regionType = .heap)
      (hfirst : ∀ a ∈ A, a.regionType ≠ .heap) (hb : newBrk = x.startVaddr) :
      Breaking L newBrk (A ++ B) (.ok newBrk)
  | moved {A B : List VmaEntry} {x : VmaEntry} (hL : L = A ++ x :: B) (hx : x.regionType = .heap)
      (hfirst : ∀ a ∈ A, a.regionType ≠ .heap) (hlt : x.startVaddr < newBrk)
      (hne : newBrk ≠ x.endVaddr) {L' : List VmaEntry}
      (hins : Insertion (A ++ B) (x.movedTo newBrk) L' (.ok ())) : Breaking L newBrk L' (.ok newBrk)
  | lost {A B : List VmaEntry} {x : VmaEntry} (hL : L = A ++ x :: B) (hx : x.regionType = .heap)
      (hfirst : ∀ a ∈ A, a.regionType ≠ .heap) (hlt : x.startVaddr < newBrk)
      (hne : newBrk ≠ x.endVaddr) {y : VmaEntry} (hy : y ∈ A ++ B) (hlo : y.startVaddr < newBrk)
      (hhi : x.startVaddr < y.endVaddr) : Breaking L newBrk (A ++ B) (.error .vmaOverlap)

section Lists

variable {m : VmaManager} {A B L L' : List VmaEntry} {x : VmaEntry} {newBrk : ℕ}

/-- One whole area is removed. -/
theorem Removal.whole {r : Except MmError Unit} (hord : Ordered (A ++ x :: B))
    (h : Removal (A ++ x :: B) x.startVaddr x.endVaddr L' r) : L' = A ++ B ∧ r = .ok () := by
  obtain ⟨-, hx, hA, hB⟩ := ordered_middle.mp hord
  cases h with
  | empty hle => omega
  | @noRoom hlt hlen A' B' y hL hlo hhi =>
    -- an area that reaches over both ends holds the first address, which is in `x`
    have hmem : y ∈ A ++ x :: B := by simp [hL]
    have hcy : y.contains x.startVaddr = true :=
      VmaEntry.contains_eq_true.mpr ⟨by omega, by omega⟩
    have hcx : x.contains x.startVaddr = true := VmaEntry.contains_eq_true.mpr ⟨le_rfl, hx⟩
    rw [hord.unique hmem (by simp) hcy hcx] at hlo
    omega
  | cut hlt hroom =>
    refine ⟨?_, rfl⟩
    rw [List.flatMap_append, List.flatMap_cons, VmaEntry.without_covered hx le_rfl le_rfl,
      List.nil_append,
      flatMap_without_of_apart fun a ha => Or.inl (hA a ha),
      flatMap_without_of_apart fun b hb => Or.inr (hB b hb)]

/-- **A request.** -/
theorem VmaManager.Rep.brk_spec (h : Rep m L) (hord : Ordered L) (newBrk : ℕ) :
    Ends (m.brk newBrk) (Breaking L newBrk) := by
  unfold VmaManager.brk
  have hle := h.length_le
  have hindex : m.heapIndex = some (Slots.position m.len m.entries (·.regionType = .heap)) := by
    rw [heapIndex, if_neg]
    rw [h.len_eq]
    omega
  rw [hindex, Option.bind_eq_bind, Option.bind_some]
  rcases h.slotsPosition (·.regionType = .heap) with ⟨hpos, hall⟩ | ⟨A, x, B, rfl, hpos, hx, hfirst⟩
  · rw [hpos]
    exact ⟨m, _, L, rfl, h, .noHeap fun x hx => by simpa using hall x hx⟩
  · rw [hpos]
    have hx : x.regionType = .heap := by simpa using hx
    have hfirst : ∀ a ∈ A, a.regionType ≠ .heap := fun a ha => by simpa using hfirst a ha
    simp only [h.entry, Option.bind_eq_bind, Option.bind_some]
    split
    · rename_i heq
      rw [← heq]
      exact ⟨m, _, _, rfl, h, .same rfl hx hfirst heq⟩
    · rename_i hne
      split
      · rename_i hlt
        exact ⟨m, _, _, rfl, h, .below rfl hx hfirst hlt⟩
      · rename_i hge
        obtain ⟨m₁, r₁, L₁, hrun₁, hrep₁, hends₁⟩ := h.remove_spec hord x.startVaddr x.endVaddr
        obtain ⟨rfl, rfl⟩ := hends₁.whole hord
        rw [hrun₁, Option.bind_some]
        simp only
        split
        · rename_i hlt
          have hord₁ := (ordered_middle.mp hord).1
          obtain ⟨m₂, r₂, L₂, hrun₂, hrep₂, hends₂⟩ := hrep₁.insert_spec hord₁ (x.movedTo newBrk)
          rw [hrun₂, Option.bind_some]
          cases r₂ with
          | ok u => exact ⟨m₂, _, _, rfl, hrep₂, .moved rfl hx hfirst hlt hne hends₂⟩
          | error e =>
            rw [List.length_append, List.length_cons] at hle
            cases hends₂ with
            | empty he => exact absurd hlt (Nat.not_lt.mpr he)
            | full he hlen =>
              rw [List.length_append] at hlen
              omega
            | overlap he hlen hy hlo hhi =>
              exact ⟨m₂, _, _, rfl, hrep₂, .lost rfl hx hfirst hlt hne hy hlo hhi⟩
        · exact ⟨m₁, _, _, rfl, hrep₁, .emptied rfl hx hfirst (by omega)⟩

/-- The heap grows from a start of its own, so it is never merged into an area in front. -/
theorem movedTo_not_joined (hord : Ordered (A ++ x :: B)) (hfirst : ∀ a ∈ A, a.regionType ≠ .heap)
    {p : VmaEntry} (hp : p ∈ A ++ B) : ¬ p.Joins (x.movedTo newBrk) := by
  intro hjoin
  obtain ⟨hrest, hx, -, hB⟩ := ordered_middle.mp hord
  have hend : p.endVaddr = x.startVaddr := hjoin.1
  have htype : p.regionType = .heap := by
    have := hjoin.2
    simp only [VmaEntry.canMerge, Bool.and_eq_true, decide_eq_true_eq] at this
    exact this.1.1.2
  rcases List.mem_append.mp hp with hpA | hpB
  · exact hfirst p hpA htype
  · have h1 := hB p hpB
    have h2 := hrest.nonempty p hp
    omega

theorem Breaking.ordered {r : Except MmError ℕ} (h : Breaking L newBrk L' r) (hord : Ordered L) :
    Ordered L' := by
  cases h with
  | noHeap | same | below => exact hord
  | emptied hL | lost hL =>
    subst hL
    exact (ordered_middle.mp hord).1
  | moved hL hx hfirst hlt hne hins =>
    subst hL
    refine hins.ordered (ordered_middle.mp hord).1 fun _ _ _ p hp hjoin => ?_
    exact absurd hjoin (movedTo_not_joined hord hfirst hp)

/-- Every request ends, and keeps the table. -/
theorem brk_keeps (h : TableOk m) (newBrk : ℕ) :
    ∃ m' r, m.brk newBrk = some (m', r) ∧ TableOk m' := by
  obtain ⟨L, hrep, hord⟩ := h.holds
  obtain ⟨m', r, L', hrun, hrep', hends⟩ := hrep.brk_spec hord newBrk
  exact ⟨m', r, hrun, Holds.tableOk ⟨L', hrep', hends.ordered hord⟩⟩

end Lists

/-! ## The heap of a process -/

/-- The heap that starts at `h` has the addresses from `h` to `b`. -/
def HeapIs (m : VmaManager) (h b : ℕ) : Prop :=
  ∀ a, (∃ x, m.IsFirst .heap x ∧ x.startVaddr = h ∧ x.contains a = true) ↔ h ≤ a ∧ a < b

/-- No area but the heap that starts at `h` has an address from `h` to `b`. -/
def HeapRoom (m : VmaManager) (h b : ℕ) : Prop :=
  ∀ y, m.Has y → ¬ (m.IsFirst .heap y ∧ y.startVaddr = h) → y.endVaddr ≤ h ∨ b ≤ y.startVaddr

/-- A break that does right by the heap `x`: below its start, where it is, or above its start with
no other area in the way and none that the new heap is merged with. -/
def BreakFits (m : VmaManager) (x : VmaEntry) (newBrk : ℕ) : Prop :=
  newBrk < x.startVaddr ∨ newBrk = x.endVaddr ∨ (x.startVaddr < newBrk ∧
    ∀ y, m.Has y → y ≠ x → (y.endVaddr ≤ x.startVaddr ∨ newBrk ≤ y.startVaddr) ∧
      ¬ (x.movedTo newBrk).Joins y)

section Heap

variable {m m' : VmaManager} {A B L L' : List VmaEntry} {x y : VmaEntry} {newBrk : ℕ}

/-- The heap has its own addresses. -/
theorem VmaManager.IsFirst.heapIs_iff (h : TableOk m) (hx : m.IsFirst .heap x) {b : ℕ} :
    HeapIs m x.startVaddr b ↔ x.endVaddr = b := by
  obtain ⟨L, hrep, hord⟩ := h.holds
  have hne : x.startVaddr < x.endVaddr := by
    obtain ⟨A, B, rfl, -⟩ := hrep.isFirst_iff.mp hx
    exact hord.nonempty x (by simp)
  have hiff : ∀ a, (∃ y, m.IsFirst .heap y ∧ y.startVaddr = x.startVaddr ∧ y.contains a = true) ↔
      x.startVaddr ≤ a ∧ a < x.endVaddr := by
    intro a
    rw [← VmaEntry.contains_eq_true]
    constructor
    · rintro ⟨y, hy, -, hc⟩
      rwa [hx.unique h hy]
    · exact fun hc => ⟨x, hx, rfl, hc⟩
  unfold HeapIs
  simp only [hiff]
  constructor
  · intro hall
    have h1 := hall x.endVaddr
    have h2 := hall b
    have h3 := hall x.startVaddr
    omega
  · rintro rfl a
    exact Iff.rfl

/-- **A request for a range that is free succeeds**, while there is a heap. -/
theorem brk_ok (h : TableOk m) (hx : m.IsFirst .heap x) (hle : x.startVaddr ≤ newBrk)
    (hroom : HeapRoom m x.startVaddr newBrk) : ∃ m', m.brk newBrk = some (m', .ok newBrk) := by
  obtain ⟨L, hrep, hord⟩ := h.holds
  obtain ⟨A, B, rfl, hxh, hA⟩ := hrep.isFirst_iff.mp hx
  obtain ⟨m', r, L', hrun, hrep', hends⟩ := hrep.brk_spec hord newBrk
  cases hends with
  | noHeap hall => exact absurd hxh (hall x (by simp))
  | same | emptied | moved => exact ⟨m', hrun⟩
  | below hL hyh hA' hb =>
    obtain ⟨rfl, rfl, rfl⟩ := first_unique hL hxh hA hyh hA'
    omega
  | @lost A' B' y hL hyh hA' hlt hne z hz hlo hhi =>
    exfalso
    obtain ⟨rfl, rfl, rfl⟩ := first_unique hL hxh hA hyh hA'
    obtain ⟨-, -, -, hB⟩ := ordered_middle.mp hord
    have hother : ¬ (m.IsFirst .heap z ∧ z.startVaddr = x.startVaddr) := by
      rintro ⟨hzh, hstart⟩
      obtain rfl := hzh.unique h hx
      rcases List.mem_append.mp hz with hz | hz
      · exact hA z hz hxh
      · have := hB z hz
        omega
    have hzL : z ∈ A ++ x :: B := by
      rcases List.mem_append.mp hz with hz | hz <;> simp [hz]
    have := hroom z (hrep.has_iff.mpr hzL) hother
    omega

/-- The heap in its list; any other way to split the list at its first heap area is this one. -/
theorem VmaManager.IsFirst.heap_split (hrep : Rep m L) (hx : m.IsFirst .heap x) :
    ∃ A B, L = A ++ x :: B ∧ x.regionType = .heap ∧ (∀ a ∈ A, a.regionType ≠ .heap) ∧
      ∀ A' B' y, L = A' ++ y :: B' → y.regionType = .heap → (∀ a ∈ A', a.regionType ≠ .heap) →
        A = A' ∧ x = y ∧ B = B' := by
  obtain ⟨A, B, rfl, hxh, hA⟩ := hrep.isFirst_iff.mp hx
  exact ⟨A, B, rfl, hxh, hA, fun A' B' y hL hyh hA' => first_unique hL hxh hA hyh hA'⟩

/-- What ends before the heap starts is in front of it, and no heap. -/
theorem not_heap_of_before (hord : Ordered (A ++ x :: B)) (hA : ∀ a ∈ A, a.regionType ≠ .heap)
    (hy : y ∈ A ++ B) (hend : y.endVaddr ≤ x.startVaddr) : y.regionType ≠ .heap := by
  obtain ⟨hrest, hxne, -, hbehind⟩ := ordered_middle.mp hord
  rcases List.mem_append.mp hy with hyA | hyB
  · exact hA y hyA
  · have h1 := hbehind y hyB
    have h2 := hrest.nonempty y hy
    omega

/-- **A request that fits** leaves the heap at its start, as long as it says; if it fails it
changes nothing. -/
theorem brk_fits (h : TableOk m) (hx : m.IsFirst .heap x) (hfits : BreakFits m x newBrk) :
    ∃ m' r, m.brk newBrk = some (m', r) ∧ (∃ x', m'.IsFirst .heap x' ∧ x'.startVaddr = x.startVaddr) ∧
      (∀ e, r = .error e → m' = m) ∧ ∀ c, r = .ok c → c = newBrk ∧ HeapIs m' x.startVaddr newBrk := by
  obtain ⟨L, hrep, hord⟩ := h.holds
  obtain ⟨m', r, L', hrun, hrep', hends⟩ := hrep.brk_spec hord newBrk
  have hok' : TableOk m' := Holds.tableOk ⟨L', hrep', hends.ordered hord⟩
  obtain ⟨A, B, hL₀, hxh, hA, hfirst⟩ := hx.heap_split hrep
  refine ⟨m', r, hrun, ?_⟩
  have hother : ∀ y ∈ A ++ B, m.Has y ∧ y ≠ x := by
    intro y hy
    subst hL₀
    obtain ⟨-, hxne, hbefore, hbehind⟩ := ordered_middle.mp hord
    refine ⟨hrep.has_iff.mpr ?_, ?_⟩
    · rcases List.mem_append.mp hy with hy | hy <;> simp [hy]
    · rintro rfl
      rcases List.mem_append.mp hy with hy | hy
      · have := hbefore y hy
        omega
      · have := hbehind y hy
        omega
  cases hends with
  | noHeap hall => exact absurd hxh (hall x (by simp [hL₀]))
  | same hL hyh hA' hb =>
    obtain ⟨rfl, rfl, rfl⟩ := hfirst _ _ _ hL hyh hA'
    obtain rfl := hrep.unique hrep'
    refine ⟨⟨x, hx, rfl⟩, fun e he => (nomatch he), fun c hc => ?_⟩
    cases hc
    exact ⟨rfl, (hx.heapIs_iff h).mpr hb.symm⟩
  | below hL hyh hA' hb =>
    obtain rfl := hrep.unique hrep'
    exact ⟨⟨x, hx, rfl⟩, fun _ _ => rfl, fun c hc => nomatch hc⟩
  | emptied hL hyh hA' hb =>
    obtain ⟨rfl, rfl, rfl⟩ := hfirst _ _ _ hL hyh hA'
    subst hL₀
    have := hord.nonempty x (by simp)
    rcases hfits with hlt | hend | ⟨hgt, -⟩ <;> omega
  | lost hL hyh hA' hlt hne hz hlo hhi =>
    obtain ⟨rfl, rfl, rfl⟩ := hfirst _ _ _ hL hyh hA'
    rcases hfits with hlt' | hend | ⟨-, hroom⟩
    · omega
    · exact absurd hend hne
    · obtain ⟨hhas, hzx⟩ := hother _ hz
      have := (hroom _ hhas hzx).1
      omega
  | moved hL hyh hA' hlt hne hins =>
    obtain ⟨rfl, rfl, rfl⟩ := hfirst _ _ _ hL hyh hA'
    subst hL₀
    obtain ⟨-, -, hbefore, hbehind⟩ := ordered_middle.mp hord
    have hroom : ∀ y, m.Has y → y ≠ x → (y.endVaddr ≤ x.startVaddr ∨ newBrk ≤ y.startVaddr) ∧
        ¬ (x.movedTo newBrk).Joins y := by
      rcases hfits with hlt' | hend | ⟨-, hroom⟩
      · omega
      · exact absurd hend hne
      · exact hroom
    cases hins with
    | intoPrev he hlen hL hjoin =>
      exact absurd hjoin (movedTo_not_joined hord hA (by simp [hL]))
    | @intoNext he hlen A' B' n hL hjoin =>
      obtain ⟨hhas, hnx⟩ := hother n (by simp [hL])
      exact absurd hjoin (hroom n hhas hnx).2
    | @added he hlen A' B' hL hA'' hB'' =>
      -- the areas in front of the new heap were in front of the old one
      have hfront : ∀ a ∈ A', a.regionType ≠ .heap := fun a ha =>
        not_heap_of_before hord hA (by simp [hL, ha]) (hA'' a ha).1
      have hheap : m'.IsFirst .heap (x.movedTo newBrk) :=
        hrep'.isFirst_iff.mpr ⟨A', B', rfl, rfl, hfront⟩
      refine ⟨⟨_, hheap, rfl⟩, fun e he => (nomatch he), fun c hc => ?_⟩
      cases hc
      exact ⟨rfl, (hheap.heapIs_iff hok').mpr rfl⟩

/-- Emptied, the heap is not there any more, so no break is granted at its start. -/
theorem not_granted_of_emptied (hord : Ordered (A ++ x :: B)) (hA : ∀ a ∈ A, a.regionType ≠ .heap)
    (hrep : Rep m (A ++ B)) : ∀ m'', m.brk x.startVaddr ≠ some (m'', .ok x.startVaddr) := by
  intro m'' hagain
  obtain ⟨hrest, hxne, -, hbehind⟩ := ordered_middle.mp hord
  obtain ⟨m₂, r₂, L₂, hrun₂, -, hends₂⟩ := hrep.brk_spec hrest x.startVaddr
  rw [hrun₂, Option.some_inj] at hagain
  cases hagain
  -- no area that is left starts or ends where the heap started and is a heap
  have hplace : ∀ A₂ B₂ y, A ++ B = A₂ ++ y :: B₂ → y.regionType = .heap →
      x.endVaddr ≤ y.startVaddr ∧ y.startVaddr < y.endVaddr := by
    intro A₂ B₂ y hL₂ hyh
    have hmem : y ∈ A ++ B := by simp [hL₂]
    refine ⟨?_, hrest.nonempty y hmem⟩
    rcases List.mem_append.mp hmem with hmem | hmem
    · exact absurd hyh (hA y hmem)
    · exact hbehind y hmem
  cases hends₂ with
  | same hL₂ hyh | emptied hL₂ hyh | moved hL₂ hyh =>
    have := hplace _ _ _ hL₂ hyh
    omega

/-- Merged into the area behind it, the heap is longer than was asked for. -/
theorem not_heapIs_of_joined (hord : Ordered (A ++ x :: B)) (hA : ∀ a ∈ A, a.regionType ≠ .heap)
    {A' B' : List VmaEntry} (hL : A ++ B = A' ++ y :: B') (hjoin : (x.movedTo newBrk).Joins y)
    (hA' : ∀ a ∈ A', a.endVaddr ≤ x.startVaddr) (hok : TableOk m)
    (hrep : Rep m (A' ++ { y with startVaddr := x.startVaddr } :: B')) :
    ¬ HeapIs m x.startVaddr newBrk := by
  intro hheap
  have hend : newBrk = y.startVaddr := hjoin.1
  have hyne := (ordered_middle.mp hord).1.nonempty y (by simp [hL])
  have hfront : ∀ a ∈ A', a.regionType ≠ .heap := fun a ha =>
    not_heap_of_before hord hA (by simp [hL, ha]) (hA' a ha)
  have htype : y.regionType = .heap := by
    have := hjoin.2
    simp only [VmaEntry.canMerge, Bool.and_eq_true, decide_eq_true_eq] at this
    exact this.1.1.2.symm
  have hmerged : m.IsFirst .heap { y with startVaddr := x.startVaddr } :=
    hrep.isFirst_iff.mpr ⟨A', B', rfl, htype, hfront⟩
  have hlong : y.endVaddr = newBrk := (hmerged.heapIs_iff hok).mp hheap
  omega

/-- Where the new heap was added as it is, nothing was in its way. -/
theorem breakFits_of_added (hord : Ordered (A ++ x :: B)) (hrep : Rep m (A ++ x :: B))
    (hlt : x.startVaddr < newBrk) {A' B' : List VmaEntry} (hL : A ++ B = A' ++ B')
    (hA' : ∀ a ∈ A', a.endVaddr ≤ x.startVaddr)
    (hB' : ∀ b ∈ B', newBrk ≤ b.startVaddr ∧ ¬ (x.movedTo newBrk).Joins b) :
    BreakFits m x newBrk := by
  refine Or.inr (Or.inr ⟨hlt, fun y hy hyx => ?_⟩)
  have hmem : y ∈ A ++ B := by
    rcases List.mem_append.mp (hrep.has_iff.mp hy) with hy | hy
    · exact List.mem_append_left B hy
    · rcases List.mem_cons.mp hy with rfl | hy
      · exact absurd rfl hyx
      · exact List.mem_append_right A hy
  have hyne := (ordered_middle.mp hord).1.nonempty y hmem
  rcases List.mem_append.mp (hL ▸ hmem) with hmem' | hmem'
  · have hend := hA' y hmem'
    refine ⟨Or.inl hend, fun hjoin => ?_⟩
    have : newBrk = y.startVaddr := hjoin.1
    omega
  · exact ⟨Or.inr (hB' y hmem').1, (hB' y hmem').2⟩

/-- A request that does not fit changes the areas and fails, or makes the heap longer than it
says, or loses it. -/
theorem brk_breaks (h : TableOk m) (hx : m.IsFirst .heap x) (hnot : ¬ BreakFits m x newBrk) :
    ∃ m' r, m.brk newBrk = some (m', r) ∧ ((∃ e, r = .error e ∧ m' ≠ m) ∨
      (r = .ok newBrk ∧ ¬ HeapIs m' x.startVaddr newBrk) ∨
      (HeapRoom m' x.startVaddr x.startVaddr ∧
        ∀ m'', m'.brk x.startVaddr ≠ some (m'', .ok x.startVaddr))) := by
  obtain ⟨L, hrep, hord⟩ := h.holds
  obtain ⟨m', r, L', hrun, hrep', hends⟩ := hrep.brk_spec hord newBrk
  have hok' : TableOk m' := Holds.tableOk ⟨L', hrep', hends.ordered hord⟩
  obtain ⟨A, B, hL₀, hxh, hA, hfirst⟩ := hx.heap_split hrep
  subst hL₀
  obtain ⟨-, hxne, hbefore, hbehind⟩ := ordered_middle.mp hord
  refine ⟨m', r, hrun, ?_⟩
  cases hends with
  | noHeap hall => exact absurd hxh (hall x (by simp))
  | same hL hyh hA' hb =>
    obtain ⟨rfl, rfl, rfl⟩ := hfirst _ _ _ hL hyh hA'
    exact absurd (Or.inr (Or.inl hb)) hnot
  | below hL hyh hA' hb =>
    obtain ⟨rfl, rfl, rfl⟩ := hfirst _ _ _ hL hyh hA'
    exact absurd (Or.inl hb) hnot
  | lost hL hyh hA' hlt hne hz hlo hhi =>
    obtain ⟨rfl, rfl, rfl⟩ := hfirst _ _ _ hL hyh hA'
    refine Or.inl ⟨_, rfl, ?_⟩
    rintro rfl
    have h1 := hrep.len_eq
    have h2 := hrep'.len_eq
    rw [List.length_append] at h1 h2
    rw [List.length_cons] at h1
    omega
  | emptied hL hyh hA' hb =>
    obtain ⟨rfl, rfl, rfl⟩ := hfirst _ _ _ hL hyh hA'
    refine Or.inr (Or.inr ⟨fun y hy _ => ?_, not_granted_of_emptied hord hA hrep'⟩)
    rcases List.mem_append.mp (hrep'.has_iff.mp hy) with hy | hy
    · exact Or.inl (hbefore y hy)
    · have := hbehind y hy
      exact Or.inr (by omega)
  | moved hL hyh hA' hlt hne hins =>
    obtain ⟨rfl, rfl, rfl⟩ := hfirst _ _ _ hL hyh hA'
    cases hins with
    | intoPrev he hlen hL hjoin =>
      exact absurd hjoin (movedTo_not_joined hord hA (by simp [hL]))
    | intoNext he hlen hL hjoin hA'' =>
      exact Or.inr (Or.inl ⟨rfl, not_heapIs_of_joined hord hA hL hjoin hA'' hok' hrep'⟩)
    | added he hlen hL hA'' hB'' =>
      exact absurd (breakFits_of_added hord hrep hlt hL (fun a ha => (hA'' a ha).1) hB'') hnot

end Heap

/-! ## Runs of requests -/

/-- A request of a process for a break. -/
def brkStep (s : MmServer) (req : ℕ × ℕ) : Option MmServer :=
  (s.handleBrk req.1 req.2).map Prod.fst

/-- The process gets every break from `h` on for which there is room. -/
def NeverLost (pid h : ℕ) (s : MmServer) : Prop :=
  ∀ m b, s.vmas pid = some m → h ≤ b → HeapRoom m h b →
    ∃ s', s.handleBrk pid b = some (s', .ok b)

/-- What a request has to do for the process `pid`, whose heap starts at `h`: it changes nothing if
it fails, it makes the heap as long as it says if it succeeds, and later requests succeed. -/
def BrkLaw (pid h : ℕ) (s : MmServer) (req : ℕ × ℕ) : Prop :=
  ∃ s' r, s.handleBrk req.1 req.2 = some (s', r) ∧
    (∀ e, r = .error e → s'.vmas pid = s.vmas pid) ∧
    (∀ b, r = .ok b → req.1 = pid → b = req.2 ∧ ∀ m', s'.vmas pid = some m' → HeapIs m' h b) ∧
    NeverLost pid h s'

/-- The condition of a request. -/
def BrkFits (pid : ℕ) (s : MmServer) (req : ℕ × ℕ) : Prop :=
  req.1 = pid → ∀ m x, s.vmas pid = some m → m.IsFirst .heap x → BreakFits m x req.2

/-- The process has a heap that starts at `h`. -/
def HeapAt (pid h : ℕ) (s : MmServer) : Prop :=
  ∃ m x, s.vmas pid = some m ∧ m.IsFirst .heap x ∧ x.startVaddr = h

section Runs

variable {s s' : MmServer} {pid h : ℕ} {req : ℕ × ℕ}

theorem handleBrk_of_some {m m' : VmaManager} {b : ℕ} {r : Except MmError ℕ}
    (hm : s.vmas pid = some m) (hrun : m.brk b = some (m', r)) :
    ∃ s', s.handleBrk pid b = some (s', r) ∧ s'.vmas pid = some m' ∧
      ∀ q ≠ pid, s'.vmas q = s.vmas q := by
  obtain ⟨s', hs', hself, hother, -⟩ :=
    MmServer.onVmas_of_some (f := (·.brk b)) hm hrun
  exact ⟨s', hs', hself, hother⟩

/-- While there is a heap, it is not lost. -/
theorem HeapAt.neverLost (hs : s.Ok) (hheap : HeapAt pid h s) : NeverLost pid h s := by
  obtain ⟨m, x, hm, hx, rfl⟩ := hheap
  intro m' b hm' hle hroom
  obtain rfl : m = m' := Option.some.inj (hm.symm.trans hm')
  obtain ⟨m₁, hrun⟩ := brk_ok (hs pid m hm) hx hle hroom
  obtain ⟨s₁, hs₁, -⟩ := handleBrk_of_some hm hrun
  exact ⟨s₁, hs₁⟩

/-- Every request ends, and keeps the tables. -/
theorem brkStep_ok (hs : s.Ok) (req : ℕ × ℕ) : ∃ s', brkStep s req = some s' ∧ s'.Ok := by
  obtain ⟨s', r, hrun, hok⟩ := hs.onVmas req.1 (f := (·.brk req.2))
    fun m hm => brk_keeps hm req.2
  exact ⟨s', by rw [brkStep, MmServer.handleBrk, hrun]; rfl, hok⟩

/-- A request of another process leaves the areas. -/
theorem vmas_of_other (hs : s.Ok) (hne : req.1 ≠ pid) :
    ∃ s' r, s.handleBrk req.1 req.2 = some (s', r) ∧ s'.vmas pid = s.vmas pid := by
  cases hm : s.vmas req.1 with
  | none => exact ⟨s, _, MmServer.onVmas_of_none hm, rfl⟩
  | some m =>
    obtain ⟨m', r, hrun, -⟩ := brk_keeps (hs req.1 m hm) req.2
    obtain ⟨s', hs', -, hother⟩ := handleBrk_of_some hm hrun
    exact ⟨s', r, hs', hother pid (Ne.symm hne)⟩

/-- A request that fits does right by the heap, and the heap is still there. -/
theorem BrkFits.law (hs : s.Ok) (hheap : HeapAt pid h s) (hfits : BrkFits pid s req) :
    BrkLaw pid h s req ∧ ∀ s', brkStep s req = some s' → HeapAt pid h s' := by
  obtain ⟨s₁, hstep, hok₁⟩ := brkStep_ok hs req
  -- it is enough to follow the one run of the request
  suffices hres : ∃ s' r, s.handleBrk req.1 req.2 = some (s', r) ∧
      (∀ e, r = .error e → s'.vmas pid = s.vmas pid) ∧
      (∀ b, r = .ok b → req.1 = pid → b = req.2 ∧ ∀ m', s'.vmas pid = some m' → HeapIs m' h b) ∧
      HeapAt pid h s' by
    obtain ⟨s', r, hrun, herr, hres, hheap'⟩ := hres
    have hstep' : brkStep s req = some s' := by rw [brkStep, hrun]; rfl
    obtain rfl : s₁ = s' := Option.some.inj (hstep.symm.trans hstep')
    refine ⟨⟨s₁, r, hrun, herr, hres, hheap'.neverLost hok₁⟩, fun s₂ hs₂ => ?_⟩
    obtain rfl : s₁ = s₂ := Option.some.inj (hstep'.symm.trans hs₂)
    exact hheap'
  by_cases hpid : req.1 = pid
  · obtain ⟨m, x, hm, hx, rfl⟩ := hheap
    obtain ⟨m', r, hrun, ⟨x', hx', hstart⟩, herr, hres⟩ :=
      brk_fits (hs pid m hm) hx (hfits hpid m x hm hx)
    obtain ⟨s', hs', hself, -⟩ := handleBrk_of_some hm hrun
    subst hpid
    refine ⟨s', r, hs', fun e he => ?_, fun b hb _ => ⟨(hres b hb).1, fun m'' hm'' => ?_⟩,
      m', x', hself, hx', hstart⟩
    · rw [hself, hm, herr e he]
    · obtain rfl : m' = m'' := Option.some.inj (hself.symm.trans hm'')
      rw [(hres b hb).1]
      exact (hres b hb).2
  · obtain ⟨s', r, hrun, hsame⟩ := vmas_of_other hs hpid
    refine ⟨s', r, hrun, fun _ _ => hsame, fun _ _ h => absurd h hpid, ?_⟩
    obtain ⟨m, x, hm, hx, hstart⟩ := hheap
    exact ⟨m, x, hsame.trans hm, hx, hstart⟩

/-- A request that does right by the heap fits. -/
theorem BrkLaw.fits (hs : s.Ok) (hheap : HeapAt pid h s) (hlaw : BrkLaw pid h s req) :
    BrkFits pid s req := by
  intro hpid m x hm hx
  by_contra hnot
  obtain ⟨m₀, x₀, hm₀, hx₀, rfl⟩ := hheap
  obtain rfl : m = m₀ := Option.some.inj (hm.symm.trans hm₀)
  obtain rfl := hx.unique (hs pid m hm) hx₀
  obtain ⟨s', r, hrun, herr, hres, hnever⟩ := hlaw
  obtain ⟨m', r', hrun', hbreak⟩ := brk_breaks (hs pid m hm) hx hnot
  obtain ⟨s₁, hs₁, hself, -⟩ := handleBrk_of_some hm hrun'
  subst hpid
  obtain ⟨rfl, rfl⟩ := Prod.mk.inj (Option.some.inj (hs₁.symm.trans hrun))
  have hok₁ : s₁.Ok := by
    obtain ⟨s₂, hs₂, hok₂⟩ := brkStep_ok hs req
    rw [brkStep, hrun] at hs₂
    obtain rfl : s₁ = s₂ := Option.some.inj hs₂
    exact hok₂
  rcases hbreak with ⟨e, rfl, hne⟩ | ⟨rfl, hheap⟩ | ⟨hroom, hgone⟩
  · have := herr e rfl
    rw [hself, hm, Option.some_inj] at this
    exact hne this
  · exact hheap ((hres req.2 rfl rfl).2 m' hself)
  · obtain ⟨s₂, hs₂⟩ := hnever m' x.startVaddr hself le_rfl hroom
    obtain ⟨m₂, r₂, hrun₂, -⟩ := brk_keeps (hok₁ req.1 m' hself) x.startVaddr
    obtain ⟨s₃, hs₃, -⟩ := handleBrk_of_some hself hrun₂
    obtain ⟨-, rfl⟩ := Prod.mk.inj (Option.some.inj (hs₃.symm.trans hs₂))
    exact hgone m₂ hrun₂

/-- **A run of requests does right by the heap of a process exactly when every request of the
process fits**; it always comes to its end. -/
theorem brk_iff (hs : s.Ok) (hheap : HeapAt pid h s) (reqs : List (ℕ × ℕ)) :
    (∃ s', reqs.foldlM brkStep s = some s') ∧
      (AlongSome brkStep (BrkLaw pid h) s reqs ↔ AlongSome brkStep (BrkFits pid) s reqs) := by
  have hreturns : ∃ s', reqs.foldlM brkStep s = some s' := by
    clear hheap
    induction reqs generalizing s with
    | nil => exact ⟨s, rfl⟩
    | cons req reqs ih =>
      obtain ⟨s₁, hs₁, hok⟩ := brkStep_ok hs req
      obtain ⟨s', hs'⟩ := ih hok
      exact ⟨s', by rw [List.foldlM_cons, hs₁]; exact hs'⟩
  obtain ⟨s', hs'⟩ := hreturns
  refine ⟨⟨s', hs'⟩, ?_⟩
  refine alongSome_iff (I := fun s _ => s.Ok ∧ HeapAt pid h s) ?_ ?_ ⟨hs, hheap⟩ hs'
  · rintro s req reqs s' ⟨hok, hheap⟩ -
    exact ⟨fun hlaw => hlaw.fits hok hheap, fun hfits => (hfits.law hok hheap).1⟩
  · rintro s req reqs s' ⟨hok, hheap⟩ hfits hstep
    obtain ⟨s₁, hs₁, hok₁⟩ := brkStep_ok hok req
    obtain rfl : s₁ = s' := Option.some.inj (hs₁.symm.trans hstep)
    exact ⟨hok₁, (hfits.law hok hheap).2 s₁ hstep⟩

end Runs

/-! ## One process with a heap of a page -/

/-- Process 1 has a heap of one page and nothing else. -/
def heapServer : MmServer :=
  { MmServer.new 0 with
    processes := ⟨fun i => [ProcessMmState.mk 1 (oneArea (.newHeap 0x30000 0x31000)) 1][i]?, 1⟩ }

theorem heapServer_ok : heapServer.Ok := by
  intro pid m hm
  obtain ⟨i, st, -, hslot, -, rfl⟩ := MmServer.slot_of_vmas hm
  have hst := List.mem_of_getElem? hslot
  rw [List.mem_singleton] at hst
  subst hst
  exact tableOk_oneArea (by decide)

theorem isFirst_oneArea {x : VmaEntry} (h : (oneArea (.newHeap 0x30000 0x31000)).IsFirst .heap x) :
    x = .newHeap 0x30000 0x31000 := by
  obtain ⟨i, hi, -⟩ := h
  exact List.mem_singleton.mp (List.mem_of_getElem? hi)

theorem heapAt_heapServer : HeapAt 1 0x30000 heapServer :=
  ⟨_, .newHeap 0x30000 0x31000, rfl, ⟨0, rfl, rfl, fun j hj => absurd hj (Nat.not_lt_zero j)⟩, rfl⟩

/-- The heap grows by a page. -/
theorem brk_iff_grow : AlongSome brkStep (BrkLaw 1 0x30000) heapServer [(1, 0x32000)] := by
  refine (brk_iff heapServer_ok heapAt_heapServer _).2.mpr ⟨fun _ m x hm hx => ?_, fun _ _ => trivial⟩
  cases hm
  obtain rfl := isFirst_oneArea hx
  refine Or.inr (Or.inr ⟨by decide, fun y hy hyx => ?_⟩)
  exact absurd (has_oneArea.mp hy) hyx

/-- **The break is moved to the start of the heap, and then the heap is gone**: the next request,
for the page the process had before, fails. -/
theorem brk_loses_heap : heapServer.Ok ∧ HeapAt 1 0x30000 heapServer ∧
    (∃ s₁ m₁ s₂, heapServer.handleBrk 1 0x30000 = some (s₁, .ok 0x30000) ∧
      s₁.vmas 1 = some m₁ ∧ m₁.len = 0 ∧
      s₁.handleBrk 1 0x31000 = some (s₂, .error .noVma)) ∧
    ¬ AlongSome brkStep (BrkLaw 1 0x30000) heapServer [(1, 0x30000), (1, 0x31000)] := by
  refine ⟨heapServer_ok, heapAt_heapServer, ⟨_, _, _, rfl, rfl, rfl, rfl⟩, fun hlaw => ?_⟩
  have hfits := hlaw.1.fits heapServer_ok heapAt_heapServer rfl _ (.newHeap 0x30000 0x31000) rfl
    ⟨0, rfl, rfl, fun j hj => absurd hj (Nat.not_lt_zero j)⟩
  rcases hfits with hlt | heq | ⟨hlt, -⟩
  · exact absurd hlt (by decide)
  · exact absurd heq (by decide)
  · exact absurd hlt (by decide)

end QuackOS.Vm
