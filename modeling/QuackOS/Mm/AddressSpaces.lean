import QuackOS.Lib.Generations
import QuackOS.Lib.Run
import QuackOS.Mm.PageTable

/-!
# The table of address spaces

`AsTable` of `kernel/bmm/mod.rs` and the calls on it.  An address-space id packs the slot and the
slot's generation into one word.

* `AsTable` — the table and its operations;
* `AsLedger` — the table with the ids given out and the page tables registered under them;
* `as_coherent` — in every run that gives out no slot more than 65535 times, the table answers
  for exactly the page tables that are registered.
-/

namespace QuackOS.Mm

/-- `AddressSpaceId`, a `usize`. -/
abbrev AddressSpaceId := ℕ

/-- `MAX_AS`. -/
def maxAs : ℕ := 128

/-- `AsEntry`. -/
structure AsEntry where
  id : AddressSpaceId
  pageTable : PageTable
  generation : ℕ
  deriving DecidableEq

/-- `AsTable`. -/
structure AsTable where
  slots : ℕ → Option AsEntry
  count : ℕ
  generations : ℕ → ℕ

/-- The id of a slot under a generation. -/
def asId (generation i : ℕ) : AddressSpaceId := (generation <<< 16) ||| i

/-- The slot that an id names. -/
def asSlot (id : AddressSpaceId) : ℕ := id &&& 0xFFFF

namespace AsTable

/-- `AsTable::new`. -/
def new : AsTable := { slots := fun _ => none, count := 0, generations := fun _ => 0 }

/-- The generation of a slot's next allocation, a `u16`. -/
def nextGeneration (t : AsTable) (i : ℕ) : ℕ :=
  if t.generations i = 0 then 1 else (t.generations i + 1) % 2 ^ 16

/-- `alloc`: the first free slot. -/
def alloc (t : AsTable) (pt : PageTable) : Option (AddressSpaceId × AsTable) :=
  (Slots.firstFree maxAs t.slots).map fun i =>
    let gen := t.nextGeneration i
    let id := asId gen i
    (id,
      { slots := Function.update t.slots i (some { id, pageTable := pt, generation := gen })
        count := t.count + 1
        generations := Function.update t.generations i gen })

/-- `free`: the entry is taken out, and put back if it is another one. -/
def free (t : AsTable) (id : AddressSpaceId) : Option PageTable × AsTable :=
  if maxAs ≤ asSlot id then (none, t)
  else
    match t.slots (asSlot id) with
    | none => (none, t)
    | some entry =>
        let taken := { t with slots := Function.update t.slots (asSlot id) none }
        if entry.id ≠ id then
          (none, { taken with slots := Function.update taken.slots (asSlot id) (some entry) })
        else (some entry.pageTable, { taken with count := taken.count - 1 })

/-- `get_mut`, as a lookup. -/
def get (t : AsTable) (id : AddressSpaceId) : Option AsEntry :=
  if asSlot id < maxAs then (t.slots (asSlot id)).filter fun e => e.id = id else none

/-- `register_page_table`: the id, and the token that goes to `TTBR0`. -/
def registerPageTable (t : AsTable) (pt : PageTable) :
    Option ((AddressSpaceId × ℕ) × AsTable) :=
  (t.alloc pt).bind fun (id, t) => (t.get id).map fun e => ((id, e.pageTable.token), t)

/-- `unregister_address_space`. -/
def unregisterAddressSpace (t : AsTable) (id : AddressSpaceId) : AsTable := (t.free id).2

/-- `MapError`, as far as the calls here return it. -/
inductive MapError
  | InvalidArgument
  deriving DecidableEq

/-- `destroy_address_space`. -/
def destroyAddressSpace (t : AsTable) (id : AddressSpaceId) : Except MapError Unit × AsTable :=
  match t.free id with
  | (none, t) => (.error .InvalidArgument, t)
  | (some _, t) => (.ok (), t)

/-- `get_ttbr0`. -/
def getTtbr0 (t : AsTable) (id : AddressSpaceId) : Option ℕ :=
  (t.get id).map fun e => e.pageTable.token

/-- `with_page_table_mut`: the closure returns a value and may change the page table. -/
def withPageTableMut {R : Type} (t : AsTable) (id : AddressSpaceId)
    (f : PageTable → R × PageTable) : Option R × AsTable :=
  match t.get id with
  | none => (none, t)
  | some e =>
      (some (f e.pageTable).1,
        { t with
          slots :=
            Function.update t.slots (asSlot id) (some { e with pageTable := (f e.pageTable).2 }) })

end AsTable

/-! ## Ids -/

theorem asId_eq {gen i : ℕ} (hi : i < 2 ^ 16) : asId gen i = gen * 2 ^ 16 + i := by
  rw [asId, ← Nat.shiftLeft_add_eq_or_of_lt hi, Nat.shiftLeft_eq]

theorem asSlot_eq (id : AddressSpaceId) : asSlot id = id % 2 ^ 16 :=
  Nat.and_two_pow_sub_one_eq_mod id 16

theorem asSlot_asId (gen : ℕ) {i : ℕ} (hi : i < 2 ^ 16) : asSlot (asId gen i) = i := by
  rw [asSlot_eq, asId_eq hi]
  omega

theorem asId_div {gen i : ℕ} (hi : i < 2 ^ 16) : asId gen i / 2 ^ 16 = gen := by
  rw [asId_eq hi]
  omega

/-! ## What the operations do -/

namespace AsTable

variable {t t' : AsTable} {id : AddressSpaceId} {e : AsEntry}

theorem get_eq_some :
    t.get id = some e ↔ asSlot id < maxAs ∧ t.slots (asSlot id) = some e ∧ e.id = id := by
  unfold get
  split
  · next h => simp [h, Option.filter_eq_some_iff]
  · next h => simp [h]

theorem get_eq_none (h : t.get id = none) (hlt : asSlot id < maxAs)
    (hs : t.slots (asSlot id) = some e) : e.id ≠ id := by
  intro heq
  rw [get_eq_some.mpr ⟨hlt, hs, heq⟩] at h
  cases h

/-- An id that does not resolve: `free` leaves the table as it was. -/
theorem free_of_get_eq_none (h : t.get id = none) : t.free id = (none, t) := by
  unfold free
  by_cases hlt : maxAs ≤ asSlot id
  · rw [if_pos hlt]
  · rw [if_neg hlt]
    cases hs : t.slots (asSlot id) with
    | none => rfl
    | some e =>
      dsimp only
      rw [if_pos (get_eq_none h (by omega) hs), Function.update_idem, ← hs,
        Function.update_eq_self]

theorem free_of_get_eq_some (h : t.get id = some e) :
    t.free id = (some e.pageTable,
      { t with slots := Function.update t.slots (asSlot id) none, count := t.count - 1 }) := by
  obtain ⟨hlt, hs, heq⟩ := get_eq_some.mp h
  unfold free
  rw [if_neg (by omega), hs]
  dsimp only
  rw [if_neg (not_not.mpr heq)]

theorem destroyAddressSpace_snd (t : AsTable) (id : AddressSpaceId) :
    (t.destroyAddressSpace id).2 = t.unregisterAddressSpace id := by
  unfold destroyAddressSpace unregisterAddressSpace
  rcases t.free id with ⟨_ | pt, t'⟩ <;> rfl

/-- `register_page_table` on a table with a free slot. -/
theorem registerPageTable_eq {i : ℕ} (h : Slots.firstFree maxAs t.slots = some i)
    (pt : PageTable) :
    t.registerPageTable pt = some ((asId (t.nextGeneration i) i, pt.token),
      { slots := Function.update t.slots i
          (some ⟨asId (t.nextGeneration i) i, pt, t.nextGeneration i⟩)
        count := t.count + 1
        generations := Function.update t.generations i (t.nextGeneration i) }) := by
  obtain ⟨-, hlt, -⟩ := Slots.firstFree_eq_some.mp h
  have hslot : asSlot (asId (t.nextGeneration i) i) = i :=
    asSlot_asId _ (hlt.trans_le (by decide))
  have hget : ∀ u : AsTable, u.slots i =
      some ⟨asId (t.nextGeneration i) i, pt, t.nextGeneration i⟩ →
      u.get (asId (t.nextGeneration i) i) =
        some ⟨asId (t.nextGeneration i) i, pt, t.nextGeneration i⟩ := fun u hu =>
    get_eq_some.mpr ⟨by rwa [hslot], by rwa [hslot], rfl⟩
  rw [registerPageTable, alloc, h, Option.map_some, Option.bind_some]
  dsimp only
  rw [hget _ (Function.update_self ..), Option.map_some]

theorem registerPageTable_full (h : Slots.firstFree maxAs t.slots = none) (pt : PageTable) :
    t.registerPageTable pt = none := by
  rw [registerPageTable, alloc, h, Option.map_none, Option.bind_none]

end AsTable

/-! ## Runs -/

/-- A call on the table. -/
inductive AsCall
  | register (pt : PageTable)
  | unregister (id : AddressSpaceId)
  | destroy (id : AddressSpaceId)
  | getTtbr0 (id : AddressSpaceId)
  | withMut (id : AddressSpaceId) (f : PageTable → PageTable)

/-- The closure of a call leaves the root of the page table in place. -/
def AsCall.KeepsToken : AsCall → Prop
  | .withMut _ f => ∀ pt, (f pt).token = pt.token
  | _ => True

/-- The table, everything that `register_page_table` returned, and the page tables that are
registered and not yet freed. -/
structure AsLedger where
  table : AsTable
  issued : List (AddressSpaceId × ℕ)
  live : List (AddressSpaceId × PageTable)

namespace AsLedger

/-- The empty table. -/
def start : AsLedger := { table := AsTable.new, issued := [], live := [] }

/-- One call. -/
def step (s : AsLedger) : AsCall → AsLedger
  | .register pt =>
      match s.table.registerPageTable pt with
      | none => s
      | some (ret, table) =>
          { table, issued := s.issued ++ [ret], live := s.live ++ [(ret.1, pt)] }
  | .unregister id =>
      { s with
        table := s.table.unregisterAddressSpace id
        live := s.live.filter fun p => p.1 ≠ id }
  | .destroy id =>
      { s with
        table := (s.table.destroyAddressSpace id).2
        live := s.live.filter fun p => p.1 ≠ id }
  | .getTtbr0 _ => s
  | .withMut id f =>
      { s with
        table := (s.table.withPageTableMut id fun pt => ((), f pt)).2
        live := s.live.map fun p => if p.1 = id then (p.1, f p.2) else p }

/-- How often `register_page_table` gave out a slot. -/
def allocations (s : AsLedger) (i : ℕ) : ℕ := s.issued.countP fun p => asSlot p.1 = i

/-- The table answers for exactly the page tables that are registered. -/
structure Coherent (s : AsLedger) : Prop where
  ttbr0 : ∀ id token, s.table.getTtbr0 id = some token ↔
    ∃ pt, (id, pt) ∈ s.live ∧ token = pt.token
  /-- Any other id is refused and the table stays as it is. -/
  rejected : ∀ id, id ∉ s.live.map Prod.fst → s.table.getTtbr0 id = none ∧
    s.table.free id = (none, s.table) ∧ s.table.unregisterAddressSpace id = s.table ∧
    s.table.destroyAddressSpace id = (.error .InvalidArgument, s.table) ∧
    ∀ (R : Type) (f : PageTable → R × PageTable), s.table.withPageTableMut id f = (none, s.table)
  distinct : (s.live.map Prod.fst).Nodup
  /-- No id is given out twice, so one that was freed is never registered again. -/
  issued : (s.issued.map Prod.fst).Nodup ∧ ∀ p ∈ s.live, p.1 ∈ s.issued.map Prod.fst
  counted : s.table.count = Slots.occupied maxAs s.table.slots

/-- The names given out, as slot and generation. -/
def names (s : AsLedger) : List (ℕ × ℕ) := s.issued.map fun p => (asSlot p.1, p.1 / 2 ^ 16)

theorem issued_names (s : AsLedger) (i : ℕ) : Generations.issued s.names i = s.allocations i := by
  simp only [Generations.issued, names, allocations, List.countP_map, Function.comp_def]

theorem mem_names {s : AsLedger} {id : AddressSpaceId} (h : id ∈ s.issued.map Prod.fst) :
    (asSlot id, id / 2 ^ 16) ∈ s.names := by
  obtain ⟨p, hp, rfl⟩ := List.mem_map.mp h
  exact List.mem_map_of_mem hp

/-- An entry is in the slot of its id, under the slot's generation, and the entries are the page
tables registered. -/
structure Inv (s : AsLedger) : Prop where
  numbered : Generations.Numbered (2 ^ 16) s.table.generations s.names
  placed : ∀ i e, s.table.slots i = some e →
    i < maxAs ∧ asSlot e.id = i ∧ (e.id, e.pageTable) ∈ s.live
  present : ∀ p ∈ s.live, ∃ e, s.table.slots (asSlot p.1) = some e ∧ e.id = p.1 ∧ e.pageTable = p.2
  distinct : (s.live.map Prod.fst).Nodup
  once : (s.issued.map Prod.fst).Nodup
  given : ∀ id ∈ s.live.map Prod.fst, id ∈ s.issued.map Prod.fst
  counted : s.table.count = Slots.occupied maxAs s.table.slots

theorem inv_start : start.Inv where
  numbered := Generations.numbered_nil
  placed i e h := by cases h
  present p h := by cases h
  distinct := List.nodup_nil
  once := List.nodup_nil
  given id h := by cases h
  counted := (Slots.occupied_empty maxAs).symm

theorem Inv.mem_live {s : AsLedger} (h : s.Inv) {id : AddressSpaceId} {pt : PageTable} :
    (id, pt) ∈ s.live ↔ ∃ e, s.table.get id = some e ∧ e.pageTable = pt := by
  constructor
  · intro hp
    obtain ⟨e, hs, hid, hpt⟩ := h.present _ hp
    exact ⟨e, AsTable.get_eq_some.mpr ⟨(h.placed _ _ hs).1, hs, hid⟩, hpt⟩
  · rintro ⟨e, hget, rfl⟩
    obtain ⟨-, hs, hid⟩ := AsTable.get_eq_some.mp hget
    exact hid ▸ (h.placed _ _ hs).2.2

theorem Inv.not_mem_live {s : AsLedger} (h : s.Inv) {id : AddressSpaceId} :
    id ∉ s.live.map Prod.fst ↔ s.table.get id = none := by
  constructor
  · intro hid
    cases hget : s.table.get id with
    | none => rfl
    | some e => exact absurd (List.mem_map_of_mem (h.mem_live.mpr ⟨e, hget, rfl⟩)) hid
  · intro hget hid
    obtain ⟨p, hp, rfl⟩ := List.mem_map.mp hid
    obtain ⟨e, he, -⟩ := h.mem_live.mp hp
    rw [hget] at he
    cases he

/-- **A page table can be registered while a slot is free**, which is so while fewer than 128 are
counted. -/
theorem Coherent.register {s : AsLedger} (h : s.Coherent) (hcount : s.table.count < maxAs)
    (pt : PageTable) : ∃ id table, s.table.registerPageTable pt = some ((id, pt.token), table) := by
  rw [h.counted] at hcount
  obtain ⟨i, hi, hfree⟩ := Slots.exists_free hcount
  cases hfirst : Slots.firstFree maxAs s.table.slots with
  | none => exact absurd hfree (Slots.firstFree_eq_none.mp hfirst i hi)
  | some j => exact ⟨_, _, AsTable.registerPageTable_eq hfirst pt⟩

theorem Inv.coherent {s : AsLedger} (h : s.Inv) : s.Coherent where
  ttbr0 id token := by
    rw [AsTable.getTtbr0, Option.map_eq_some_iff]
    constructor
    · rintro ⟨e, hget, rfl⟩
      exact ⟨e.pageTable, h.mem_live.mpr ⟨e, hget, rfl⟩, rfl⟩
    · rintro ⟨pt, hp, rfl⟩
      obtain ⟨e, hget, rfl⟩ := h.mem_live.mp hp
      exact ⟨e, hget, rfl⟩
  rejected id hid := by
    have hget := h.not_mem_live.mp hid
    have hfree := AsTable.free_of_get_eq_none hget
    refine ⟨by rw [AsTable.getTtbr0, hget, Option.map_none], hfree,
      by rw [AsTable.unregisterAddressSpace, hfree], by rw [AsTable.destroyAddressSpace, hfree],
      fun R f => ?_⟩
    rw [AsTable.withPageTableMut, hget]
  distinct := h.distinct
  issued := ⟨h.once, fun p hp => h.given p.1 (List.mem_map_of_mem hp)⟩
  counted := h.counted

theorem Inv.register {s : AsLedger} (h : s.Inv) (pt : PageTable)
    (hlife : ∀ i, Slots.firstFree maxAs s.table.slots = some i → s.allocations i < 2 ^ 16) :
    (s.step (.register pt)).Inv := by
  cases hf : Slots.firstFree maxAs s.table.slots with
  | none => simpa only [step, AsTable.registerPageTable_full hf] using h
  | some i =>
    obtain ⟨hfree, hlt, -⟩ := Slots.firstFree_eq_some.mp hf
    have hlt16 : i < 2 ^ 16 := hlt.trans_le (by decide)
    have hslot := asSlot_asId (s.table.nextGeneration i) hlt16
    have hissued := s.issued_names i ▸ hlife i hf
    have hnew : asId (s.table.nextGeneration i) i ∉ s.issued.map Prod.fst := by
      intro hmem
      have hname := mem_names hmem
      rw [hslot, asId_div hlt16] at hname
      exact h.numbered.fresh (by decide) hissued hname
    simp only [step, AsTable.registerPageTable_eq hf]
    refine ⟨?_, fun j e hs => ?_, fun p hp => ?_, ?_, ?_, fun id hid => ?_, ?_⟩
    · have hpush := h.numbered.push (by decide) i
      simp only [names, List.map_append, List.map_singleton, hslot, asId_div hlt16]
      exact hpush
    · dsimp only at hs ⊢
      by_cases hj : j = i
      · subst hj
        rw [Function.update_self] at hs
        cases hs
        exact ⟨hlt, hslot, List.mem_append_right _ (List.mem_singleton.mpr rfl)⟩
      · rw [Function.update_of_ne hj] at hs
        obtain ⟨hlt', hslot', hmem⟩ := h.placed j e hs
        exact ⟨hlt', hslot', List.mem_append_left _ hmem⟩
    · dsimp only at hp ⊢
      rcases List.mem_append.mp hp with hold | hself
      · obtain ⟨e, hs, hid, hpt⟩ := h.present p hold
        have hne : asSlot p.1 ≠ i := by
          intro heq
          rw [heq, hfree] at hs
          cases hs
        exact ⟨e, by rwa [Function.update_of_ne hne], hid, hpt⟩
      · rw [List.mem_singleton.mp hself, hslot]
        exact ⟨_, Function.update_self .., rfl, rfl⟩
    · rw [List.map_append, List.map_singleton]
      exact List.nodup_append_comm.mp
        (List.nodup_cons.mpr ⟨fun hmem => hnew (h.given _ hmem), h.distinct⟩)
    · rw [List.map_append, List.map_singleton]
      exact List.nodup_append_comm.mp (List.nodup_cons.mpr ⟨hnew, h.once⟩)
    · simp only [List.map_append, List.mem_append, List.map_singleton] at hid ⊢
      exact hid.imp_left (h.given id)
    · exact (congrArg (· + 1) h.counted).trans (Slots.occupied_insert hlt hfree _).symm

theorem Inv.free {s : AsLedger} (h : s.Inv) (id : AddressSpaceId) :
    Inv { s with
      table := s.table.unregisterAddressSpace id
      live := s.live.filter fun p => p.1 ≠ id } := by
  cases hget : s.table.get id with
  | none =>
    have hlive : (s.live.filter fun p => p.1 ≠ id) = s.live := by
      refine List.filter_eq_self.mpr fun p hp => ?_
      have hne : p.1 ≠ id := fun heq => h.not_mem_live.mpr hget (heq ▸ List.mem_map_of_mem hp)
      simpa using hne
    rw [AsTable.unregisterAddressSpace, AsTable.free_of_get_eq_none hget, hlive]
    exact h
  | some e =>
    obtain ⟨hlt, hs, hid⟩ := AsTable.get_eq_some.mp hget
    have hsub : (s.live.filter fun p => p.1 ≠ id).Sublist s.live := List.filter_sublist
    rw [AsTable.unregisterAddressSpace, AsTable.free_of_get_eq_some hget]
    refine ⟨h.numbered, fun j e' hs' => ?_, fun p hp => ?_, h.distinct.sublist (hsub.map _),
      h.once, fun id' hid' => h.given id' ((hsub.map _).subset hid'), ?_⟩
    · dsimp only at hs' ⊢
      by_cases hj : j = asSlot id
      · rw [hj, Function.update_self] at hs'
        cases hs'
      · rw [Function.update_of_ne hj] at hs'
        obtain ⟨hlt', hslot', hmem⟩ := h.placed j e' hs'
        have hne : e'.id ≠ id := fun heq => hj (hslot'.symm.trans (by rw [heq]))
        exact ⟨hlt', hslot', List.mem_filter.mpr ⟨hmem, by simpa using hne⟩⟩
    · dsimp only at hp ⊢
      obtain ⟨hp, hne⟩ := List.mem_filter.mp hp
      obtain ⟨e', hs', hid', hpt⟩ := h.present p hp
      have hslot : asSlot p.1 ≠ asSlot id := by
        intro heq
        rw [heq, hs, Option.some.injEq] at hs'
        rw [← hs', hid] at hid'
        simp [hid'] at hne
      exact ⟨e', by rwa [Function.update_of_ne hslot], hid', hpt⟩
    · have hcount := Slots.occupied_remove hlt hs
      have hbefore := h.counted
      dsimp only
      omega

theorem Inv.withMut {s : AsLedger} (h : s.Inv) (id : AddressSpaceId) (f : PageTable → PageTable) :
    (s.step (.withMut id f)).Inv := by
  have hfst : (s.live.map fun p => if p.1 = id then (p.1, f p.2) else p).map Prod.fst =
      s.live.map Prod.fst := by
    rw [List.map_map]
    refine List.map_congr_left fun p _ => ?_
    simp only [Function.comp_apply]
    split <;> rfl
  cases hget : s.table.get id with
  | none =>
    have hlive : (s.live.map fun p => if p.1 = id then (p.1, f p.2) else p) = s.live := by
      refine (List.map_congr_left fun p hp => ?_).trans (List.map_id _)
      have hne : p.1 ≠ id := fun heq => h.not_mem_live.mpr hget (heq ▸ List.mem_map_of_mem hp)
      exact if_neg hne
    simp only [step, AsTable.withPageTableMut, hget, hlive]
    exact h
  | some e =>
    obtain ⟨hlt, hs, hid⟩ := AsTable.get_eq_some.mp hget
    simp only [step, AsTable.withPageTableMut, hget]
    refine ⟨h.numbered, fun j e' hs' => ?_, fun p hp => ?_, by rw [hfst]; exact h.distinct,
      h.once, by rw [hfst]; exact h.given, ?_⟩
    · dsimp only at hs' ⊢
      by_cases hj : j = asSlot id
      · subst hj
        rw [Function.update_self] at hs'
        cases hs'
        refine ⟨hlt, by rw [hid], List.mem_map.mpr ⟨(e.id, e.pageTable), (h.placed _ _ hs).2.2, ?_⟩⟩
        exact if_pos hid
      · rw [Function.update_of_ne hj] at hs'
        obtain ⟨hlt', hslot', hmem⟩ := h.placed j e' hs'
        have hne : e'.id ≠ id := fun heq => hj (hslot'.symm.trans (by rw [heq]))
        exact ⟨hlt', hslot', List.mem_map.mpr ⟨(e'.id, e'.pageTable), hmem, if_neg hne⟩⟩
    · dsimp only at hp ⊢
      obtain ⟨q, hq, rfl⟩ := List.mem_map.mp hp
      obtain ⟨e', hs', hid', hpt⟩ := h.present q hq
      by_cases hqid : q.1 = id
      · rw [if_pos hqid]
        rw [hqid, hs, Option.some.injEq] at hs'
        dsimp only
        rw [hqid]
        exact ⟨_, Function.update_self .., by rw [hid], by rw [hs', hpt]⟩
      · rw [if_neg hqid]
        have hslot : asSlot q.1 ≠ asSlot id := by
          intro heq
          rw [heq, hs, Option.some.injEq] at hs'
          exact hqid (by rw [← hid', ← hs', hid])
        exact ⟨e', by rwa [Function.update_of_ne hslot], hid', hpt⟩
    · exact h.counted.trans (Slots.occupied_replace hlt hs _).symm

/-- No slot is given out for the 65536th time. -/
def InLife (s : AsLedger) : AsCall → Prop
  | .register _ => ∀ i, Slots.firstFree maxAs s.table.slots = some i → s.allocations i < 2 ^ 16 - 1
  | _ => True

theorem Inv.step {s : AsLedger} (h : s.Inv) {c : AsCall} (hlife : s.InLife c) :
    (s.step c).Inv := by
  cases c with
  | register pt => exact h.register pt fun i hi => (hlife i hi).trans (by decide)
  | unregister id => exact h.free id
  | destroy id =>
    rw [AsLedger.step, AsTable.destroyAddressSpace_snd]
    exact h.free id
  | getTtbr0 id => exact h
  | withMut id f => exact h.withMut id f

/-! ## Counting allocations -/

/-- The count of a slot only grows. -/
theorem allocations_step (s : AsLedger) (c : AsCall) (i : ℕ) :
    s.allocations i ≤ (s.step c).allocations i := by
  cases c with
  | register pt =>
    cases hr : s.table.registerPageTable pt with
    | none => simp only [step, hr, le_refl]
    | some r =>
      simp only [step, hr]
      exact (List.sublist_append_left ..).countP_le
  | unregister id => exact le_refl _
  | destroy id => exact le_refl _
  | getTtbr0 id => exact le_refl _
  | withMut id f => exact le_refl _

theorem allocations_register {s : AsLedger} {i : ℕ} (pt : PageTable)
    (h : Slots.firstFree maxAs s.table.slots = some i) :
    (s.step (.register pt)).allocations i = s.allocations i + 1 := by
  obtain ⟨-, hlt, -⟩ := Slots.firstFree_eq_some.mp h
  have hslot := asSlot_asId (s.table.nextGeneration i) (hlt.trans_le (by decide))
  simp only [step, AsTable.registerPageTable_eq h, allocations, List.countP_append,
    List.countP_singleton, hslot, decide_true, if_true]

theorem allocations_exec (s : AsLedger) (calls : List AsCall) (i : ℕ) :
    s.allocations i ≤ (Run.exec step s calls).allocations i := by
  induction calls generalizing s with
  | nil => exact le_refl _
  | cons c calls ih => exact (allocations_step s c i).trans (ih (s.step c))

/-- A run that gives out no slot too often in all gives out none too often at any call. -/
theorem along_inLife {s : AsLedger} {calls : List AsCall}
    (h : ∀ i, (Run.exec step s calls).allocations i ≤ 2 ^ 16 - 1) :
    Run.Along step InLife s calls := by
  induction calls generalizing s with
  | nil => trivial
  | cons c calls ih =>
    refine ⟨?_, ih h⟩
    cases c with
    | register pt =>
      intro i hi
      have hall := (allocations_exec (s.step (.register pt)) calls i).trans (h i)
      rw [allocations_register pt hi] at hall
      omega
    | unregister id => trivial
    | destroy id => trivial
    | getTtbr0 id => trivial
    | withMut id f => trivial

/-! ## Tokens -/

/-- Every page table still has the token that `register_page_table` returned for it. -/
def SameTokens (s : AsLedger) : Prop := ∀ p ∈ s.live, (p.1, p.2.token) ∈ s.issued

theorem SameTokens.step {s : AsLedger} (h : s.SameTokens) {c : AsCall} (hc : c.KeepsToken) :
    (s.step c).SameTokens := by
  cases c with
  | register pt =>
    cases hf : Slots.firstFree maxAs s.table.slots with
    | none => simpa only [AsLedger.step, AsTable.registerPageTable_full hf] using h
    | some i =>
      simp only [AsLedger.step, AsTable.registerPageTable_eq hf]
      intro p hp
      rcases List.mem_append.mp hp with hold | hself
      · exact List.mem_append_left _ (h p hold)
      · rw [List.mem_singleton.mp hself]
        exact List.mem_append_right _ (List.mem_singleton.mpr rfl)
  | unregister id => exact fun p hp => h p (List.mem_of_mem_filter hp)
  | destroy id => exact fun p hp => h p (List.mem_of_mem_filter hp)
  | getTtbr0 id => exact h
  | withMut id f =>
    intro p hp
    obtain ⟨q, hq, rfl⟩ := List.mem_map.mp hp
    have hold := h q hq
    split
    · rw [hc q.2]
      exact hold
    · exact hold

/-- **The table of address spaces is coherent**: in every state of a run that gives out no slot
more than 65535 times, `get_ttbr0` answers for exactly the ids registered and not yet freed, with
the token of the page table registered under the id; every other id is refused and changes
nothing; and ids are distinct and counted.  When no closure moves the root of a page table, the
token is the one that `register_page_table` returned. -/
theorem as_coherent {calls : List AsCall}
    (h : ∀ i, (Run.exec step start calls).allocations i ≤ 65535) {pre : List AsCall}
    (hpre : pre <+: calls) :
    (Run.exec step start pre).Coherent ∧
      ((∀ c ∈ calls, c.KeepsToken) → ∀ id token,
        (Run.exec step start pre).table.getTtbr0 id = some token →
          (id, token) ∈ (Run.exec step start pre).issued) := by
  have hstep : ∀ s c, Inv s → InLife s c → Inv (step s c) := fun s c hs hc => hs.step hc
  have hinv := Run.exec_invariant_prefix hstep inv_start (along_inLife h) hpre
  refine ⟨hinv.coherent, fun hkeep id token htoken => ?_⟩
  have htokens : ∀ s c, SameTokens s → AsCall.KeepsToken c → SameTokens (step s c) :=
    fun s c hs hc => hs.step hc
  have hsame : (Run.exec step start pre).SameTokens :=
    Run.exec_invariant_prefix htokens (fun p hp => by cases hp) (Run.along_of_forall hkeep) hpre
  obtain ⟨pt, hpt, rfl⟩ := (hinv.coherent.ttbr0 id token).mp htoken
  exact hsame _ hpt

/-- Two page tables registered, the first freed and its slot given out again; the first id is
stale then. -/
def reuse : List AsCall :=
  [.register ⟨16, none, true⟩, .register ⟨17, none, true⟩, .unregister 0x10000,
    .register ⟨18, none, true⟩, .withMut 0x20000 id, .destroy 0x10000]

theorem as_coherent_reuse :
    (Run.exec step start reuse).Coherent ∧
      ((∀ c ∈ reuse, c.KeepsToken) → ∀ id token,
        (Run.exec step start reuse).table.getTtbr0 id = some token →
          (id, token) ∈ (Run.exec step start reuse).issued) := by
  have hissued : (Run.exec step start reuse).issued =
      [(0x10000, 0x10000), (0x10001, 0x11000), (0x20000, 0x12000)] := by decide +kernel
  refine as_coherent (fun i => ?_) (List.prefix_refl reuse)
  have hle : (Run.exec step start reuse).allocations i ≤ 3 := by
    rw [allocations, hissued]
    exact List.countP_le_length
  omega

end AsLedger

end QuackOS.Mm
