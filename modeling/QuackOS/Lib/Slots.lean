import Mathlib.Data.List.Basic
import Mathlib.Data.Finset.Card
import Mathlib.Data.Multiset.Filter
import Mathlib.Data.Multiset.Range
import Mathlib.Logic.Function.Basic

/-!
# Fixed-size tables of optional entries

A kernel table is an array `[Option<T>; N]`: an entry is inserted into the first free slot
and found by scanning for the first occupied slot that matches.  A table is a function
`ℕ → Option α` here and its size a separate number; updates are `Function.update`.

* `firstFree` — the slot an insertion takes;
* `position` — the slot a scan stops at;
* `lookup` — the entry a scan returns, with one lemma for each way a table changes;
* `occurrences`, `occupied` — how many slots hold a value, how many hold any;
* `contents` — the entries of a table, in no order;
* `initial` — the entries of an array in use, with removal by moving the last one;
* `packed` — an array, as a list, whose first slots are the occupied ones.
-/

namespace QuackOS.Slots

variable {α : Type*}

/-- The first empty slot below `n`. -/
def firstFree (n : ℕ) (f : ℕ → Option α) : Option ℕ :=
  (List.range n).find? fun i => (f i).isNone

/-- The first slot below `n` whose entry satisfies `p`. -/
def position (n : ℕ) (f : ℕ → Option α) (p : α → Bool) : Option ℕ :=
  (List.range n).find? fun i => (f i).any p

/-- The first entry that satisfies `p`. -/
def lookup (n : ℕ) (f : ℕ → Option α) (p : α → Bool) : Option α :=
  (position n f p).bind f

variable {n : ℕ} {f : ℕ → Option α} {p : α → Bool} {x : ℕ}

theorem firstFree_eq_some : firstFree n f = some x ↔
    f x = none ∧ x < n ∧ ∀ j < x, f j ≠ none := by
  simp only [firstFree, List.find?_range_eq_some, Option.isNone_iff_eq_none, List.mem_range,
    Bool.not_eq_true', ne_eq]
  refine and_congr_right fun _ => and_congr_right fun _ => forall₂_congr fun j _ => ?_
  cases f j <;> simp

theorem firstFree_eq_none : firstFree n f = none ↔ ∀ i < n, f i ≠ none := by
  simp only [firstFree, List.find?_eq_none, List.mem_range, Option.isNone_iff_eq_none, ne_eq]

/-- Where a table has its free slots is all that matters. -/
theorem firstFree_congr {β : Type*} {g : ℕ → Option β} (h : ∀ i < n, f i = none ↔ g i = none) :
    firstFree n f = firstFree n g := by
  cases hg : firstFree n g with
  | none =>
    rw [firstFree_eq_none] at hg ⊢
    exact fun i hi hf => hg i hi ((h i hi).mp hf)
  | some x =>
    obtain ⟨hfree, hlt, hmin⟩ := firstFree_eq_some.mp hg
    exact firstFree_eq_some.mpr ⟨(h x hlt).mpr hfree, hlt, fun j hj hf =>
      hmin j hj ((h j (hj.trans hlt)).mp hf)⟩

theorem position_eq_some : position n f p = some x ↔
    (f x).any p = true ∧ x < n ∧ ∀ j < x, (f j).any p = false := by
  simp only [position, List.find?_range_eq_some, List.mem_range, Bool.not_eq_true']

theorem position_eq_none : position n f p = none ↔ ∀ i < n, (f i).any p = false := by
  simp only [position, List.find?_eq_none, List.mem_range, Bool.not_eq_true]

theorem lookup_of_position (h : position n f p = some x) : lookup n f p = f x := by
  simp only [lookup, h, Option.bind_some]

/-- What a scan returns is in the table and satisfies the predicate. -/
theorem lookup_eq_some {a : α} (h : lookup n f p = some a) :
    ∃ x < n, position n f p = some x ∧ f x = some a ∧ p a = true := by
  obtain ⟨x, hx, hfx⟩ := Option.bind_eq_some_iff.mp h
  obtain ⟨hany, hlt, -⟩ := position_eq_some.mp hx
  rw [hfx, Option.any_some] at hany
  exact ⟨x, hlt, hx, hfx, hany⟩

theorem lookup_eq_none : lookup n f p = none ↔ position n f p = none := by
  constructor
  · intro h
    cases hx : position n f p with
    | none => rfl
    | some x =>
      rw [lookup_of_position hx] at h
      have hany := (position_eq_some.mp hx).1
      rw [h] at hany
      cases hany
  · intro h
    simp only [lookup, h, Option.bind_none]

/-- Overwriting the slot a scan stops at with an entry that still matches. -/
theorem lookup_update_self (h : position n f p = some x) {a : α} (ha : p a = true) :
    lookup n (Function.update f x (some a)) p = some a := by
  obtain ⟨-, hlt, hbefore⟩ := position_eq_some.mp h
  have hpos : position n (Function.update f x (some a)) p = some x := by
    refine position_eq_some.mpr ⟨by simpa using ha, hlt, fun j hj => ?_⟩
    rw [Function.update_of_ne (by omega)]
    exact hbefore j hj
  rw [lookup_of_position hpos, Function.update_self]

/-- A scan is not affected by a slot that matches neither before nor after. -/
theorem lookup_update_of_not {o : Option α} (hold : (f x).any p = false)
    (hnew : o.any p = false) : lookup n (Function.update f x o) p = lookup n f p := by
  have hpos : position n (Function.update f x o) p = position n f p := by
    unfold position
    congr 1
    funext i
    by_cases hi : i = x
    · rw [hi, Function.update_self, hold, hnew]
    · rw [Function.update_of_ne hi]
  cases hq : position n f p with
  | none =>
    rw [lookup_eq_none.mpr hq, lookup_eq_none, hpos, hq]
  | some y =>
    have hy : y ≠ x := by
      rintro rfl
      rw [(position_eq_some.mp hq).1] at hold
      cases hold
    rw [lookup_of_position hq, lookup_of_position (hpos.trans hq), Function.update_of_ne hy]

/-- A scan that found nothing finds an entry put into the first free slot. -/
theorem lookup_insert (hnone : lookup n f p = none) (hfree : firstFree n f = some x) {a : α}
    (ha : p a = true) : lookup n (Function.update f x (some a)) p = some a := by
  have hmiss := position_eq_none.mp (lookup_eq_none.mp hnone)
  obtain ⟨-, hlt, -⟩ := firstFree_eq_some.mp hfree
  have hpos : position n (Function.update f x (some a)) p = some x := by
    refine position_eq_some.mpr ⟨by simpa using ha, hlt, fun j hj => ?_⟩
    rw [Function.update_of_ne (by omega)]
    exact hmiss j (by omega)
  rw [lookup_of_position hpos, Function.update_self]

/-! ## Counting -/

section Occurrences

variable {β : Type*} [DecidableEq β] {g : ℕ → β} {b c : β}

/-- How many slots below `n` hold `b`. -/
def occurrences (n : ℕ) (g : ℕ → β) (b : β) : ℕ := ((Finset.range n).filter fun i => g i = b).card

theorem occurrences_pos : 0 < occurrences n g b ↔ ∃ i < n, g i = b := by
  simp only [occurrences, Finset.card_pos, Finset.Nonempty, Finset.mem_filter, Finset.mem_range]

/-- A slot that changes takes its old value out of the count and puts its new value in. -/
theorem occurrences_update (hx : x < n) :
    occurrences n (Function.update g x c) b + (if g x = b then 1 else 0) =
      occurrences n g b + (if c = b then 1 else 0) := by
  have hsplit : ∀ h : ℕ → β, occurrences n h b =
      (((Finset.range n).erase x).filter fun i => h i = b).card + if h x = b then 1 else 0 := by
    intro h
    have hmem : x ∈ Finset.range n := Finset.mem_range.mpr hx
    have hnot : x ∉ ((Finset.range n).erase x).filter fun i => h i = b := by simp
    rw [occurrences, ← Finset.insert_erase hmem, Finset.filter_insert]
    split
    · rw [Finset.erase_insert_eq_erase, Finset.erase_idem, Finset.card_insert_of_notMem hnot]
    · rw [Finset.erase_insert_eq_erase, Finset.erase_idem, Nat.add_zero]
  have hrest : (((Finset.range n).erase x).filter fun i => Function.update g x c i = b) =
      ((Finset.range n).erase x).filter fun i => g i = b := by
    refine Finset.filter_congr fun i hi => ?_
    rw [Function.update_of_ne (Finset.ne_of_mem_erase hi)]
  rw [hsplit (Function.update g x c), hsplit g, hrest, Function.update_self]
  omega

/-- How many slots below `n` are taken. -/
def occupied (n : ℕ) (f : ℕ → Option α) : ℕ := occurrences n (fun i => (f i).isSome) true

theorem isSome_update (o : Option α) :
    (fun i => (Function.update f x o i).isSome) =
      Function.update (fun i => (f i).isSome) x o.isSome := by
  funext i
  by_cases hi : i = x
  · rw [hi, Function.update_self, Function.update_self]
  · rw [Function.update_of_ne hi, Function.update_of_ne hi]

theorem occupied_insert (hx : x < n) (hfree : f x = none) (a : α) :
    occupied n (Function.update f x (some a)) = occupied n f + 1 := by
  have h := occurrences_update (g := fun i => (f i).isSome) (b := true) (c := true) hx
  simpa [occupied, isSome_update, hfree] using h

theorem occupied_remove (hx : x < n) {a : α} (htaken : f x = some a) :
    occupied n (Function.update f x none) + 1 = occupied n f := by
  have h := occurrences_update (g := fun i => (f i).isSome) (b := true) (c := false) hx
  simpa [occupied, isSome_update, htaken] using h

theorem occupied_replace (hx : x < n) {a : α} (htaken : f x = some a) (b : α) :
    occupied n (Function.update f x (some b)) = occupied n f := by
  have h := occurrences_update (g := fun i => (f i).isSome) (b := true) (c := true) hx
  simpa [occupied, isSome_update, htaken] using h

/-- As long as not all slots are taken, one is free. -/
theorem exists_free (h : occupied n f < n) : ∃ i < n, f i = none := by
  by_contra hall
  push Not at hall
  refine absurd h (not_lt.mpr ?_)
  have hfull : (Finset.range n).filter (fun i => (f i).isSome = true) = Finset.range n :=
    Finset.filter_true_of_mem fun i hi =>
      Option.isSome_iff_ne_none.mpr (hall i (Finset.mem_range.mp hi))
  rw [occupied, occurrences, hfull, Finset.card_range]

theorem occupied_empty (n : ℕ) : occupied n (fun _ => (none : Option α)) = 0 := by
  simp [occupied, occurrences]

end Occurrences

/-! ## The entries without their places -/

section Contents

/-- The entries in the slots below `n`. -/
def contents (n : ℕ) (f : ℕ → Option α) : Multiset α := (Multiset.range n).filterMap f

/-- An entry set beside the others. -/
theorem contents_update_some (hx : x < n) (a : α) :
    contents n (Function.update f x (some a)) = a ::ₘ contents n (Function.update f x none) := by
  obtain ⟨rest, hrest⟩ := Multiset.exists_cons_of_mem (Multiset.mem_range.mpr hx)
  have hnotin : x ∉ rest := by
    have hnodup := Multiset.nodup_range n
    rw [hrest] at hnodup
    exact (Multiset.nodup_cons.mp hnodup).1
  have hsame : ∀ o : Option α, rest.filterMap (Function.update f x o) = rest.filterMap f := by
    intro o
    obtain ⟨l, rfl⟩ := Quot.exists_rep rest
    have hl : l.filterMap (Function.update f x o) = l.filterMap f := by
      refine List.filterMap_congr fun i hi => ?_
      have hix : i ≠ x := by
        rintro rfl
        exact hnotin hi
      rw [Function.update_of_ne hix]
    exact congrArg Multiset.ofList hl
  rw [contents, contents, hrest, Multiset.filterMap_cons_some _ _ _ (Function.update_self ..),
    Multiset.filterMap_cons_none _ _ (Function.update_self ..), hsame, hsame]

theorem contents_insert (hx : x < n) (hfree : f x = none) (a : α) :
    contents n (Function.update f x (some a)) = a ::ₘ contents n f := by
  rw [contents_update_some hx, ← hfree, Function.update_eq_self]

theorem contents_remove (hx : x < n) {a : α} (htaken : f x = some a) :
    contents n f = a ::ₘ contents n (Function.update f x none) := by
  rw [← contents_update_some hx, ← htaken, Function.update_eq_self]

theorem mem_contents {a : α} : a ∈ contents n f ↔ ∃ i < n, f i = some a := by
  simp only [contents, Multiset.mem_filterMap, Multiset.mem_range]

end Contents

/-! ## Arrays with a length -/

section Initial

variable {β : Type*} {g : ℕ → β} {i : ℕ}

/-- The first `n` entries of an array. -/
def initial (n : ℕ) (g : ℕ → β) : List β := (List.range n).map g

theorem mem_initial {b : β} : b ∈ initial n g ↔ ∃ i < n, g i = b := by
  simp only [initial, List.mem_map, List.mem_range]

theorem initial_update_of_le (h : n ≤ i) (b : β) :
    initial n (Function.update g i b) = initial n g := by
  refine List.map_congr_left fun j hj => ?_
  have hji : j ≠ i := by
    have hlt := List.mem_range.mp hj
    omega
  exact Function.update_of_ne hji b g

/-- An entry written behind the last one. -/
theorem initial_push (b : β) : initial (n + 1) (Function.update g n b) = initial n g ++ [b] := by
  have hkept := initial_update_of_le (g := g) (le_refl n) b
  unfold initial at hkept ⊢
  rw [List.range_succ, List.map_append, hkept, List.map_singleton, Function.update_self]

/-- An entry is removed by moving the last one into its place. -/
theorem initial_swapRemove (hi : i < n + 1) :
    (g i :: initial n (Function.update g i (g n))).Perm (initial (n + 1) g) := by
  have hlast : initial (n + 1) g = initial n g ++ [g n] := by
    rw [initial, List.range_succ, List.map_append, List.map_singleton, initial]
  rw [hlast]
  rcases Nat.lt_or_eq_of_le (Nat.le_of_lt_succ hi) with hlt | rfl
  · -- both sides are the entries other than `i`, with `g i` and `g n` in front
    have hperm : (List.range n).Perm (i :: (List.range n).erase i) :=
      List.perm_cons_erase (List.mem_range.mpr hlt)
    have hmap : ∀ h : ℕ → β, (initial n h).Perm (h i :: ((List.range n).erase i).map h) :=
      fun h => hperm.map h
    have hrest : ((List.range n).erase i).map (Function.update g i (g n)) =
        ((List.range n).erase i).map g := by
      refine List.map_congr_left fun j hj => Function.update_of_ne ?_ (g n) g
      exact (List.nodup_range.mem_erase_iff.mp hj).1
    have hnew := hmap (Function.update g i (g n))
    rw [Function.update_self, hrest] at hnew
    have hswap : (g i :: initial n (Function.update g i (g n))).Perm (g n :: initial n g) :=
      (hnew.cons (g i)).trans ((List.Perm.swap ..).trans ((hmap g).symm.cons (g n)))
    exact hswap.trans (List.perm_append_singleton ..).symm
  · rw [initial_update_of_le (le_refl i)]
    exact (List.perm_append_singleton ..).symm

end Initial

/-! ## Arrays without holes -/

section Packed

variable {xs : List α} {i : ℕ}

/-- The array of `n` slots whose first ones hold `xs`. -/
def packed (n : ℕ) (xs : List α) : List (Option α) :=
  xs.map some ++ List.replicate (n - xs.length) none

/-- The free slot an insertion takes is the one behind the entries. -/
theorem findIdx?_packed (h : xs.length < n) :
    (packed n xs).findIdx? Option.isNone = some xs.length := by
  have hrest : n - xs.length = n - xs.length - 1 + 1 := by omega
  have hno : (xs.map some).findIdx? Option.isNone = none := by simp
  rw [packed, List.findIdx?_append, hno, hrest, List.replicate_succ]
  simp [List.findIdx?_cons]

theorem set_packed (h : xs.length < n) (x : α) :
    (packed n xs).set xs.length (some x) = packed n (xs ++ [x]) := by
  have hrest : n - xs.length = n - (xs ++ [x]).length + 1 := by
    rw [List.length_append, List.length_singleton]
    omega
  rw [packed, packed, hrest, List.replicate_succ,
    List.set_append_right _ _ (by simp), List.length_map, Nat.sub_self, List.set_cons_zero,
    List.map_append, List.append_assoc]
  rfl

theorem take_packed (n : ℕ) (xs : List α) : (packed n xs).take xs.length = xs.map some := by
  rw [packed, List.take_left' (List.length_map _)]

/-- The last entry is taken out. -/
theorem clear_last_packed (h : xs.length < n) (x : α) :
    (packed n (xs ++ [x])).set xs.length none = packed n xs := by
  rw [← set_packed h, List.set_set, packed,
    List.set_append_right _ _ (by simp), List.length_map, Nat.sub_self]
  obtain ⟨k, hk⟩ : ∃ k, n - xs.length = k + 1 := ⟨n - xs.length - 1, by omega⟩
  rw [hk, List.replicate_succ, List.set_cons_zero]

/-- Where a scan finds an entry. -/
theorem findIdx?_packed_some [DecidableEq α] {x : α} (hx : x ∈ xs) :
    (packed n xs).findIdx? (fun slot => slot == some x) = some (xs.idxOf x) := by
  have hfound : (xs.map some).findIdx? (fun slot => slot == some x) = some (xs.idxOf x) := by
    rw [List.findIdx?_map]
    have hany : (xs.findIdx? fun y => y == x) = some (xs.findIdx fun y => y == x) :=
      List.findIdx?_eq_some_of_exists ⟨x, hx, by simp⟩
    simpa [Function.comp_def, List.idxOf] using hany
  rw [packed, List.findIdx?_append, hfound, Option.some_or]

theorem findIdx?_packed_none [DecidableEq α] {x : α} (hx : x ∉ xs) :
    (packed n xs).findIdx? (fun slot => slot == some x) = none := by
  rw [List.findIdx?_eq_none_iff]
  intro slot hslot
  rcases List.mem_append.mp hslot with hslot | hslot
  · obtain ⟨y, hy, rfl⟩ := List.mem_map.mp hslot
    have hne : y ≠ x := fun h => hx (h ▸ hy)
    simpa using hne
  · rw [List.eq_of_mem_replicate hslot]
    rfl

/-- A hole among the first slots: as many slots as there are entries left hold fewer. -/
theorem length_filterMap_hole (h : i + 1 < xs.length) :
    ((((packed n xs).set i none).take (xs.length - 1)).filterMap id).length < xs.length - 1 := by
  have hlen : (((packed n xs).set i none).take (xs.length - 1)).length = xs.length - 1 := by
    simp [packed]
    omega
  have hhole : none ∈ ((packed n xs).set i none).take (xs.length - 1) := by
    refine List.mem_take_iff_getElem.mpr ⟨i, ?_, ?_⟩
    · rw [List.length_set, packed, List.length_append, List.length_map]
      omega
    · rw [List.getElem_set_self]
  have hshort := List.length_filterMap_lt_length_iff_exists.mpr ⟨none, hhole, (rfl : id none = none)⟩
  rw [hlen] at hshort
  exact hshort

end Packed

end QuackOS.Slots
