import QuackOS.Vm.VmaMap

/-!
# Failed calls

A call that fails is to leave the table as it was.

* `VmaCall.answer` — a call with what it returns;
* `failsCleanly_iff` — **every call does, but a removal from the middle of an area in a full table**:
  it has cut the area before it sees that there is no room for the part behind the range;
* `remove_loses_back` — such a removal.
-/

namespace QuackOS.Vm

open VmaManager

/-- The error a call returns, if any. -/
def errorOf {α : Type} : Except MmError α → Option MmError
  | .ok _ => none
  | .error e => some e

/-- What a call leaves of the table, and the error it returns. -/
def VmaCall.answer (m : VmaManager) : VmaCall → Option (VmaManager × Option MmError)
  | .insert e => (m.insert e).map (Prod.map id errorOf)
  | .remove start stop => (m.remove start stop).map (Prod.map id errorOf)
  | .splitAt vaddr => (m.splitAt vaddr).map (Prod.map id errorOf)
  | .extendStack newStart => (m.extendStack newStart).map (Prod.map id errorOf)

/-- A call that fails leaves the table as it was. -/
def FailsCleanly (m : VmaManager) (c : VmaCall) : Prop :=
  ∃ m' r, c.answer m = some (m', r) ∧ (r.isSome = true → m' = m)

/-- A removal from the middle of an area, in a full table. -/
def LosesBack (m : VmaManager) : VmaCall → Prop
  | .remove start stop => m.len = maxVmaEntries ∧ start < stop ∧
      ∃ x, m.Has x ∧ x.startVaddr < start ∧ stop < x.endVaddr
  | _ => False

section Failure

variable {m : VmaManager} {L L' : List VmaEntry}

theorem Insertion.of_error {e : VmaEntry} {r : Except MmError Unit} (h : Insertion L e L' r)
    (hr : (errorOf r).isSome = true) : L' = L := by
  cases h with
  | empty | full | overlap => rfl
  | intoPrev | intoNext | added => cases hr

theorem Splitting.of_error {vaddr : ℕ} {r : Except MmError ℕ} (h : Splitting L vaddr L' r)
    (hr : (errorOf r).isSome = true) : L' = L := by
  cases h with
  | outside | boundary | full => rfl
  | split => cases hr

theorem Growth.of_error {newStart : ℕ} {r : Except MmError Unit} (h : Growth L newStart L' r)
    (hr : (errorOf r).isSome = true) : L' = L := by
  cases h with
  | noStack | above | blocked => rfl
  | grown => cases hr

/-- A call whose failures leave the list leaves the table. -/
theorem VmaManager.Rep.failsCleanly {α : Type} (h : Rep m L)
    {run : Option (VmaManager × Except MmError α)} {P : List VmaEntry → Except MmError α → Prop}
    (hrun : Ends run P) (hP : ∀ L' r, P L' r → (errorOf r).isSome = true → L' = L) :
    ∃ m' r, run.map (Prod.map id errorOf) = some (m', r) ∧ (r.isSome = true → m' = m) := by
  obtain ⟨m', r, L', rfl, hrep, hends⟩ := hrun
  refine ⟨m', errorOf r, rfl, fun hr => ?_⟩
  obtain rfl := hP L' r hends hr
  exact hrep.unique h

/-- **A call that fails leaves the table as it was, unless it removes the middle of an area of a
full table.** -/
theorem failsCleanly_iff (h : TableOk m) (c : VmaCall) : FailsCleanly m c ↔ ¬ LosesBack m c := by
  obtain ⟨L, hrep, hord⟩ := h.holds
  cases c with
  | insert e =>
    refine iff_of_true ?_ fun h => h
    exact hrep.failsCleanly (hrep.insert_spec hord e) fun L' r h => h.of_error
  | splitAt vaddr =>
    refine iff_of_true ?_ fun h => h
    exact hrep.failsCleanly (hrep.splitAt_spec hord vaddr) fun L' r h => h.of_error
  | extendStack newStart =>
    refine iff_of_true ?_ fun h => h
    exact hrep.failsCleanly (hrep.extendStack_spec hord newStart) fun L' r h => h.of_error
  | remove start stop =>
    obtain ⟨m', r, L', hrun, hrep', hends⟩ := hrep.remove_spec hord start stop
    have hanswer : (VmaCall.remove start stop).answer m = some (m', errorOf r) := by
      rw [VmaCall.answer, hrun]
      rfl
    rw [FailsCleanly, exists_run_iff hanswer, LosesBack, hrep.len_eq]
    simp only [hrep.has_iff]
    cases hends with
    | empty hle =>
      refine iff_of_true (fun _ => hrep'.unique hrep) ?_
      rintro ⟨-, hlt, -⟩
      omega
    | @noRoom hlt hlen A B x hL hlo hhi =>
      subst hL
      refine iff_of_false (fun hclean => ?_) fun hnot => hnot ⟨hlen, hlt, x, by simp, hlo, hhi⟩
      refine hrep.ne_of_set hrep' (fun heq => ?_) (hclean rfl)
      have := congrArg VmaEntry.endVaddr heq
      simp only at this
      omega
    | cut hlt hroom =>
      refine iff_of_true (fun h => nomatch h) ?_
      rintro ⟨hfull, -, x, hx, hlo, hhi⟩
      have := hroom x hx hlo hhi
      omega

end Failure

/-! ## A full table -/

/-- A table of 64 areas of three pages, a page apart. -/
def fullTable : VmaManager :=
  ⟨fun i => if i < 64 then some (dataArea (0x4000 * i) (0x4000 * i + 0x3000)) else none, 64⟩

theorem tableOk_fullTable : TableOk fullTable := by
  have hentry : ∀ i e, fullTable.entries i = some e →
      e.startVaddr = 0x4000 * i ∧ e.endVaddr = 0x4000 * i + 0x3000 := by
    intro i e he
    by_cases hi : i < 64
    · have : fullTable.entries i = some (dataArea (0x4000 * i) (0x4000 * i + 0x3000)) := if_pos hi
      rw [this, Option.some_inj] at he
      subst he
      exact ⟨rfl, rfl⟩
    · have : fullTable.entries i = none := if_neg hi
      rw [this] at he
      cases he
  constructor
  · intro i hi
    refine ⟨_, if_pos hi, ?_⟩
    show 0x4000 * i < 0x4000 * i + 0x3000
    omega
  · intro i j a b hij ha hb
    have h1 := hentry i a ha
    have h2 := hentry j b hb
    omega
  · rintro i j a b hij ha hb vaddr ⟨hca, hcb⟩
    have h1 := hentry i a ha
    have h2 := hentry j b hb
    rw [VmaEntry.contains_eq_true] at hca hcb
    omega
  · exact fun i hi => if_neg (Nat.not_lt.mpr hi)
  · exact le_rfl

/-- An area of the full table is to be split, which fails, and the table stays. -/
theorem failsCleanly_split : FailsCleanly fullTable (.splitAt 0x1000) ∧
    (VmaCall.splitAt 0x1000).answer fullTable = some (fullTable, some .outOfMemory) := by
  have hclean := (failsCleanly_iff tableOk_fullTable (.splitAt 0x1000)).mpr fun h => h
  refine ⟨hclean, ?_⟩
  obtain ⟨m', r, hanswer, hkeeps⟩ := hclean
  have hfails : ((VmaCall.splitAt 0x1000).answer fullTable).map Prod.snd =
      some (some .outOfMemory) := rfl
  rw [hanswer, Option.map_some, Option.some.injEq] at hfails
  dsimp only at hfails
  subst hfails
  rw [hanswer, hkeeps rfl]

/-- **The middle page of the first area is removed from the full table**: the call fails, and the
area has lost its last two pages. -/
theorem remove_loses_back : TableOk fullTable ∧ ∃ m',
    (VmaCall.remove 0x1000 0x2000).answer fullTable = some (m', some .outOfMemory) ∧
      fullTable.entries 0 = some (dataArea 0 0x3000) ∧ m'.entries 0 = some (dataArea 0 0x1000) ∧
      m' ≠ fullTable := by
  have hrun : ∃ m', (VmaCall.remove 0x1000 0x2000).answer fullTable = some (m', some .outOfMemory) ∧
      m'.entries 0 = some (dataArea 0 0x1000) := ⟨_, rfl, rfl⟩
  obtain ⟨m', hm', h0⟩ := hrun
  refine ⟨tableOk_fullTable, m', hm', rfl, h0, ?_⟩
  rintro rfl
  have : some (dataArea 0 0x3000) = some (dataArea 0 0x1000) := h0
  exact absurd this (by decide)

end QuackOS.Vm
