import QuackOS.Lib.Slots
import QuackOS.Vm.Vma

/-!
# The table as a list

The first `len` slots of a `VmaManager` hold a list of areas and the others are empty.  Each
operation on slots is an operation on that list.

* `Rep`, `Lists` — the table holds a list, and it does as far as its entries are in use;
* `Rep.setEntry`, `Rep.insertNew`, `Rep.removeAt` — changing, inserting and removing an entry;
* `Lists.position`, `Rep.slotsPosition` — what a search for the first entry with a property finds.
-/

namespace QuackOS.Vm.VmaManager

/-- The table holds the areas of `L` in this order, and nothing else. -/
structure Rep (m : VmaManager) (L : List VmaEntry) : Prop where
  len_eq : m.len = L.length
  slots : ∀ i, m.entries i = L[i]?
  length_le : L.length ≤ maxVmaEntries

/-- The entries in use are the areas of `L` in this order. -/
structure Lists (m : VmaManager) (L : List VmaEntry) : Prop where
  len_eq : m.len = L.length
  slots : ∀ i < m.len, m.entries i = L[i]?
  length_le : L.length ≤ maxVmaEntries

section Slots

variable {m : VmaManager} {A B L : List VmaEntry} {e e' : VmaEntry} {pos : ℕ}

theorem Rep.lists (h : Rep m L) : Lists m L := ⟨h.len_eq, fun i _ => h.slots i, h.length_le⟩

theorem rep_new : Rep new [] := ⟨rfl, fun _ => rfl, by decide⟩

/-- An entry in use. -/
theorem Lists.entry (h : Lists m (A ++ e :: B)) : m.entry A.length = some e := by
  have hlen := h.len_eq
  have hle := h.length_le
  rw [List.length_append, List.length_cons] at hlen hle
  rw [VmaManager.entry, if_pos (by omega), h.slots _ (by omega), List.getElem?_append_right le_rfl,
    Nat.sub_self]
  rfl

/-- The entry in the middle of the table. -/
theorem Rep.entry (h : Rep m (A ++ e :: B)) : m.entry A.length = some e := h.lists.entry

theorem getElem?_set_middle (i : ℕ) :
    Function.update (fun i => (A ++ e :: B)[i]?) A.length (some e') i = (A ++ e' :: B)[i]? := by
  by_cases hi : i = A.length
  · subst hi
    rw [Function.update_self, List.getElem?_append_right le_rfl, Nat.sub_self]
    rfl
  · rw [Function.update_of_ne hi]
    rcases Nat.lt_or_gt_of_ne hi with hlt | hgt
    · rw [List.getElem?_append_left hlt, List.getElem?_append_left hlt]
    · rw [List.getElem?_append_right (Nat.le_of_lt hgt), List.getElem?_append_right (Nat.le_of_lt hgt),
        show i - A.length = (i - A.length - 1) + 1 by omega, List.getElem?_cons_succ,
        List.getElem?_cons_succ]

/-- An entry is overwritten. -/
theorem Rep.setEntry (h : Rep m (A ++ e :: B)) (e' : VmaEntry) :
    ∃ m', m.setEntry A.length e' = some m' ∧ Rep m' (A ++ e' :: B) := by
  have hle := h.length_le
  have hlen := h.len_eq
  rw [List.length_append, List.length_cons] at hle hlen
  refine ⟨{ m with entries := Function.update m.entries A.length (some e') }, ?_, ?_, ?_, ?_⟩
  · rw [VmaManager.setEntry, if_pos (by omega)]
  · rw [List.length_append, List.length_cons]
    exact hlen
  · intro i
    have hslots : m.entries = fun i => (A ++ e :: B)[i]? := funext h.slots
    show Function.update m.entries A.length (some e') i = _
    rw [hslots]
    exact getElem?_set_middle i
  · rw [List.length_append, List.length_cons]
    exact hle

/-- Tables that differ in one entry are different. -/
theorem Rep.ne_of_set {m' : VmaManager} (h : Rep m (A ++ e :: B)) (h' : Rep m' (A ++ e' :: B))
    (hne : e ≠ e') : m' ≠ m := by
  rintro rfl
  have hentry := h.entry.symm.trans h'.entry
  exact hne (Option.some.inj hentry)

/-- What `shift_right` does to the slots. -/
theorem shiftRightLoop_apply {f : ℕ → Option VmaEntry} {n : ℕ} (i : ℕ) :
    shiftRightLoop pos n f i =
      if pos < n then
        if i < pos then f i else if i = pos then none else if i ≤ n then f (i - 1) else f i
      else f i := by
  induction n generalizing f with
  | zero =>
    rw [shiftRightLoop, if_neg (by omega)]
  | succ n ih =>
    rw [shiftRightLoop]
    by_cases hpos : pos < n + 1
    · rw [if_pos hpos, if_pos hpos, ih]
      by_cases hn : pos < n
      · rw [if_pos hn]
        by_cases h1 : i < pos
        · rw [if_pos h1, if_pos h1, Function.update_of_ne (by omega),
            Function.update_of_ne (by omega)]
        rw [if_neg h1, if_neg h1]
        by_cases h2 : i = pos
        · rw [if_pos h2, if_pos h2]
        rw [if_neg h2, if_neg h2]
        by_cases h3 : i ≤ n
        · rw [if_pos h3, if_pos (by omega), Function.update_of_ne (by omega),
            Function.update_of_ne (by omega)]
        rw [if_neg h3]
        by_cases h4 : i = n + 1
        · subst h4
          rw [if_pos le_rfl, Function.update_of_ne (by omega), Function.update_self,
            Nat.add_sub_cancel]
        · rw [if_neg (by omega), Function.update_of_ne (by omega), Function.update_of_ne h4]
      · -- the last step of the loop: `pos = n`
        have hpn : pos = n := by omega
        subst hpn
        rw [if_neg (by omega)]
        by_cases h1 : i < pos
        · rw [if_pos h1, Function.update_of_ne (by omega), Function.update_of_ne (by omega)]
        rw [if_neg h1]
        by_cases h2 : i = pos
        · rw [if_pos h2, h2, Function.update_self]
        rw [if_neg h2, Function.update_of_ne h2]
        by_cases h4 : i = pos + 1
        · subst h4
          rw [if_pos le_rfl, Function.update_self, Nat.add_sub_cancel]
        · rw [if_neg (by omega), Function.update_of_ne h4]
    · rw [if_neg hpos, if_neg hpos]

/-- An entry is inserted between others. -/
theorem Rep.insertNew (h : Rep m (A ++ B)) (hroom : (A ++ B).length < maxVmaEntries) (e : VmaEntry) :
    ∃ m', m.insertNew A.length e = some (m', .ok ()) ∧ Rep m' (A ++ e :: B) := by
  have hlen := h.len_eq
  have hroom' := hroom
  rw [List.length_append] at hlen hroom'
  refine ⟨⟨Function.update (shiftRightLoop A.length m.len m.entries) A.length (some e), m.len + 1⟩,
    ?_, ?_, ?_, ?_⟩
  · rw [VmaManager.insertNew, shiftRight, if_neg (by omega), Option.bind_eq_bind, Option.bind_some,
      VmaManager.setEntry, if_pos (by omega)]
    rfl
  · show m.len + 1 = _
    rw [List.length_append, List.length_cons, hlen]
    omega
  · intro i
    show Function.update (shiftRightLoop A.length m.len m.entries) A.length (some e) i = _
    by_cases hi : i = A.length
    · subst hi
      rw [Function.update_self, List.getElem?_append_right le_rfl, Nat.sub_self]
      rfl
    · rw [Function.update_of_ne hi, shiftRightLoop_apply]
      rcases Nat.lt_or_gt_of_ne hi with hlt | hgt
      · have hsame : m.entries i = (A ++ e :: B)[i]? := by
          rw [h.slots, List.getElem?_append_left hlt, List.getElem?_append_left hlt]
        rw [if_pos hlt, ite_self, hsame]
      · rw [List.getElem?_append_right (Nat.le_of_lt hgt), show i - A.length = (i - A.length - 1) + 1 by omega,
          List.getElem?_cons_succ]
        have hprev : ∀ j, A.length ≤ j → m.entries j = B[j - A.length]? := by
          intro j hj
          rw [h.slots, List.getElem?_append_right hj]
        have hnlt : ¬ i < A.length := by omega
        by_cases hin : A.length < m.len ∧ i ≤ m.len
        · rw [if_pos hin.1, if_neg hnlt, if_neg hi, if_pos hin.2, hprev _ (by omega),
            show i - 1 - A.length = i - A.length - 1 by omega]
        · have hout : m.entries i = none := by
            rw [hprev _ (by omega), List.getElem?_eq_none (by omega)]
          have hend : B[i - A.length - 1]? = none := List.getElem?_eq_none (by omega)
          rw [hend]
          by_cases hany : A.length < m.len
          · rw [if_pos hany, if_neg hnlt, if_neg hi, if_neg (fun h => hin ⟨hany, h⟩), hout]
          · rw [if_neg hany, hout]
  · rw [List.length_append, List.length_cons]
    omega

/-- What the loop of `shift_left` does to the slots. -/
theorem shiftLeftLoop_apply {f : ℕ → Option VmaEntry} {n : ℕ} (i : ℕ) :
    (List.range' pos n).foldl (fun (f : ℕ → Option VmaEntry) i =>
        Function.update (Function.update f i (f (i + 1))) (i + 1) none) f i =
      if pos ≤ i ∧ i < pos + n then f (i + 1)
      else if 0 < n ∧ i = pos + n then none else f i := by
  induction n generalizing i with
  | zero => rw [if_neg (by omega), if_neg (by omega), List.range'_zero, List.foldl_nil]
  | succ n ih =>
    rw [List.range'_1_concat, List.foldl_append, List.foldl_cons, List.foldl_nil]
    by_cases h1 : i = pos + n + 1
    · subst h1
      rw [Function.update_self, if_neg (by omega), if_pos (by omega)]
    · rw [Function.update_of_ne h1]
      by_cases h2 : i = pos + n
      · subst h2
        rw [Function.update_self, ih, if_neg (by omega), if_neg (by omega), if_pos (by omega)]
      · rw [Function.update_of_ne h2, ih]
        by_cases h3 : pos ≤ i ∧ i < pos + n
        · rw [if_pos h3, if_pos (by omega)]
        · rw [if_neg h3, if_neg (by omega), if_neg (by omega), if_neg (by omega)]

/-- An entry is removed. -/
theorem Rep.removeAt (h : Rep m (A ++ e :: B)) :
    ∃ m', m.shiftLeft A.length = some m' ∧ Rep { m' with len := m'.len - 1 } (A ++ B) := by
  have hle := h.length_le
  have hlen := h.len_eq
  rw [List.length_append, List.length_cons] at hle hlen
  have hprev : ∀ j, A.length ≤ j → m.entries (j + 1) = B[j - A.length]? := by
    intro j hj
    rw [h.slots, List.getElem?_append_right (by omega),
      show j + 1 - A.length = (j - A.length) + 1 by omega, List.getElem?_cons_succ]
  refine ⟨⟨Function.update ((List.range' A.length (m.len - 1 - A.length)).foldl
    (fun (f : ℕ → Option VmaEntry) i =>
      Function.update (Function.update f i (f (i + 1))) (i + 1) none) m.entries) (m.len - 1) none,
    m.len⟩, ?_, ?_, ?_, ?_⟩
  · rw [shiftLeft, if_neg (by omega)]
  · show m.len - 1 = _
    rw [List.length_append]
    omega
  · intro i
    show Function.update ((List.range' A.length (m.len - 1 - A.length)).foldl
      (fun (f : ℕ → Option VmaEntry) i =>
        Function.update (Function.update f i (f (i + 1))) (i + 1) none) m.entries) (m.len - 1) none
      i = _
    by_cases hlast : i = m.len - 1
    · subst hlast
      rw [Function.update_self, List.getElem?_eq_none]
      rw [List.length_append]
      omega
    · rw [Function.update_of_ne hlast, shiftLeftLoop_apply]
      by_cases hlt : i < A.length
      · rw [if_neg (by omega), if_neg (by omega), h.slots, List.getElem?_append_left hlt,
          List.getElem?_append_left hlt]
      · rw [List.getElem?_append_right (by omega)]
        split
        · rw [hprev i (by omega)]
        · rw [if_neg (by omega), h.slots, List.getElem?_eq_none, List.getElem?_eq_none (by omega)]
          rw [List.length_append, List.length_cons]
          omega
  · rw [List.length_append]
    omega

/-- The first entry that satisfies a predicate, if any. -/
theorem Lists.position (h : Lists m L) (p : VmaEntry → Bool) :
    (m.position p = some none ∧ ∀ e ∈ L, p e = false) ∨
      ∃ A e B, L = A ++ e :: B ∧ m.position p = some (some A.length) ∧ p e = true ∧
        ∀ a ∈ A, p a = false := by
  suffices hscan : ∀ C A, L = A ++ C → (∀ a ∈ A, p a = false) →
      (m.scan p C.length A.length = some none ∧ ∀ e ∈ L, p e = false) ∨
        ∃ A' e B, L = A' ++ e :: B ∧ m.scan p C.length A.length = some (some A'.length) ∧
          p e = true ∧ ∀ a ∈ A', p a = false by
    have := hscan L [] rfl (fun _ ha => nomatch ha)
    rwa [VmaManager.position, h.len_eq]
  intro C
  induction C with
  | nil =>
    intro A hL hA
    rw [List.append_nil] at hL
    exact .inl ⟨rfl, hL ▸ hA⟩
  | cons e C ih =>
    intro A hL hA
    have hentry : m.entry A.length = some e := (hL ▸ h : Lists m (A ++ e :: C)).entry
    cases hp : p e with
    | true =>
      refine .inr ⟨A, e, C, hL, ?_, hp, hA⟩
      rw [List.length_cons, scan, hentry, Option.bind_eq_bind, Option.bind_some, if_pos hp]
      rfl
    | false =>
      have hscan : m.scan p (e :: C).length A.length = m.scan p C.length (A ++ [e]).length := by
        rw [List.length_cons, scan, hentry, Option.bind_eq_bind, Option.bind_some,
          if_neg (by rw [hp]; exact Bool.false_ne_true), List.length_append, List.length_singleton]
      rw [hscan]
      refine ih (A ++ [e]) (by rw [hL, List.append_assoc]; rfl) ?_
      intro a ha
      rcases List.mem_append.mp ha with ha | ha
      · exact hA a ha
      · rw [List.mem_singleton.mp ha]
        exact hp

theorem Rep.position (h : Rep m L) (p : VmaEntry → Bool) :
    (m.position p = some none ∧ ∀ e ∈ L, p e = false) ∨
      ∃ A e B, L = A ++ e :: B ∧ m.position p = some (some A.length) ∧ p e = true ∧
        ∀ a ∈ A, p a = false :=
  h.lists.position p

/-- The first entry in use that satisfies a predicate, if any. -/
theorem Rep.slotsPosition (h : Rep m L) (p : VmaEntry → Bool) :
    (Slots.position m.len m.entries p = none ∧ ∀ e ∈ L, p e = false) ∨
      ∃ A e B, L = A ++ e :: B ∧ Slots.position m.len m.entries p = some A.length ∧ p e = true ∧
        ∀ a ∈ A, p a = false := by
  rw [h.len_eq]
  have hany : ∀ i, (hi : i < L.length) → (m.entries i).any p = p L[i] := by
    intro i hi
    rw [h.slots, List.getElem?_eq_getElem hi, Option.any_some]
  cases hpos : Slots.position L.length m.entries p with
  | none =>
    refine Or.inl ⟨rfl, fun e he => ?_⟩
    obtain ⟨i, hi, rfl⟩ := List.getElem_of_mem he
    rw [← hany i hi]
    exact Slots.position_eq_none.mp hpos i hi
  | some i =>
    obtain ⟨hp, hi, hbefore⟩ := Slots.position_eq_some.mp hpos
    rw [hany i hi] at hp
    refine Or.inr ⟨L.take i, L[i], L.drop (i + 1), ?_, ?_, hp, fun a ha => ?_⟩
    · rw [← List.drop_eq_getElem_cons, List.take_append_drop]
    · rw [List.length_take, Nat.min_eq_left (Nat.le_of_lt hi)]
    · obtain ⟨j, hj, rfl⟩ := List.getElem_of_mem ha
      rw [List.length_take] at hj
      rw [List.getElem_take, ← hany j (by omega)]
      exact hbefore j (by omega)

end Slots

end QuackOS.Vm.VmaManager
