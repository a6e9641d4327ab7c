import Mathlib.Data.List.Basic
import Mathlib.Data.Nat.ModEq
import Mathlib.Logic.Equiv.Basic
import Mathlib.Logic.Function.Basic

/-!
# Ring buffers

The fixed-capacity FIFO of kernel queues: an array of optional items, two indices that wrap
around and a count.  A ring that is `Filled` has no holes and *is* the list `toList`:

* `toList_push` — a push appends, and fails exactly on a full ring;
* `pop_nil`, `pop_cons` — a pop takes the oldest item.

Removing from the middle can break the indices of a ring, so a second view asks less:
`Distinct` says only that no two slots hold items of one key, and `Holds` which items there are.
-/

namespace QuackOS

/-- A ring of optional items. -/
structure Ring (α : Type*) where
  items : ℕ → Option α
  head : ℕ
  tail : ℕ
  count : ℕ

namespace Ring

variable {α : Type*}

/-- The empty ring. -/
def empty : Ring α := { items := fun _ => none, head := 0, tail := 0, count := 0 }

/-- Append an item, or `none` when the ring is full. -/
def push (cap : ℕ) (r : Ring α) (a : α) : Option (Ring α) :=
  if cap ≤ r.count then none
  else some { r with
    items := Function.update r.items r.tail (some a)
    tail := (r.tail + 1) % cap
    count := r.count + 1 }

/-- Take the slot at the head and advance, whatever the slot holds. -/
def take (cap : ℕ) (r : Ring α) : Option α × Ring α :=
  (r.items r.head,
    { r with
      items := Function.update r.items r.head none
      head := (r.head + 1) % cap
      count := r.count - 1 })

/-- Remove the oldest item. -/
def pop (cap : ℕ) (r : Ring α) : Option α × Ring α :=
  if r.count = 0 then (none, r) else r.take cap

/-- The items in queue order. -/
def toList (cap : ℕ) (r : Ring α) : List α :=
  (List.range r.count).filterMap fun i => r.items ((r.head + i) % cap)

/-- The indices agree with the count and every slot between them holds an item. -/
structure Filled (cap : ℕ) (r : Ring α) : Prop where
  count_le : r.count ≤ cap
  head_lt : r.head < cap
  tail_eq : r.tail = (r.head + r.count) % cap
  isSome : ∀ i < r.count, r.items ((r.head + i) % cap) ≠ none

variable {cap : ℕ} {r r' : Ring α} {a : α}

theorem filled_empty (h : 0 < cap) : Filled cap (empty : Ring α) where
  count_le := Nat.zero_le _
  head_lt := h
  tail_eq := by simp [empty]
  isSome i hi := by simp [empty] at hi

@[simp] theorem toList_empty : (empty : Ring α).toList cap = [] := rfl

/-- Two offsets below the capacity name the same slot only if they are equal. -/
theorem offset_inj {h i j : ℕ} (hi : i < cap) (hj : j < cap)
    (heq : (h + i) % cap = (h + j) % cap) : i = j :=
  (Nat.ModEq.add_left_cancel' h heq).eq_of_lt_of_lt hi hj

theorem length_toList (h : Filled cap r) : (r.toList cap).length = r.count := by
  have key : ∀ n ≤ r.count,
      ((List.range n).filterMap fun i => r.items ((r.head + i) % cap)).length = n := by
    intro n
    induction n with
    | zero => intro _; rfl
    | succ n ih =>
      intro hn
      obtain ⟨a, ha⟩ := Option.ne_none_iff_exists'.mp (h.isSome n (by omega))
      rw [List.range_succ, List.filterMap_append, List.length_append, ih (by omega)]
      simp [ha]
  exact key r.count (le_refl _)

theorem push_eq_none_iff : r.push cap a = none ↔ cap ≤ r.count := by
  unfold push
  split <;> simp_all

/-- A successful push. -/
theorem push_eq_some (h : r.push cap a = some r') : r.count < cap ∧ r' = { r with
    items := Function.update r.items r.tail (some a)
    tail := (r.tail + 1) % cap
    count := r.count + 1 } := by
  unfold push at h
  split at h
  · cases h
  · rename_i hc
    cases h
    exact ⟨by omega, rfl⟩

/-- **A push appends** to the list a filled ring stands for. -/
theorem toList_push (hr : Filled cap r) (h : r.push cap a = some r') :
    Filled cap r' ∧ r'.toList cap = r.toList cap ++ [a] := by
  obtain ⟨hc, rfl⟩ := push_eq_some h
  have hcap : 0 < cap := by omega
  -- the slots already in use are not the one written
  have hold : ∀ i < r.count,
      Function.update r.items r.tail (some a) ((r.head + i) % cap) =
        r.items ((r.head + i) % cap) := by
    intro i hi
    refine Function.update_of_ne (fun heq => ?_) _ _
    rw [hr.tail_eq] at heq
    have := offset_inj (by omega) hc heq
    omega
  refine ⟨⟨hc, hr.head_lt, ?_, ?_⟩, ?_⟩
  · simp only
    rw [hr.tail_eq, Nat.mod_add_mod, Nat.add_assoc]
  · intro i hi
    simp only at hi ⊢
    rcases Nat.lt_succ_iff_lt_or_eq.mp hi with hlt | rfl
    · rw [hold i hlt]
      exact hr.isSome i hlt
    · rw [← hr.tail_eq, Function.update_self]
      simp
  · unfold toList
    simp only
    rw [List.range_succ, List.filterMap_append]
    congr 1
    · refine List.filterMap_congr fun i hi => hold i (List.mem_range.mp hi)
    · simp [← hr.tail_eq]

/-- A filled ring that stands for the empty list has nothing to pop. -/
theorem pop_nil (hr : Filled cap r) (h : r.toList cap = []) : r.pop cap = (none, r) := by
  have hlen := length_toList hr
  rw [h, List.length_nil] at hlen
  simp [pop, ← hlen]

/-- **A pop takes the oldest item.** -/
theorem pop_cons (hr : Filled cap r) {l : List α} (h : r.toList cap = a :: l) :
    ∃ r', r.pop cap = (some a, r') ∧ r.take cap = (some a, r') ∧ Filled cap r' ∧
      r'.toList cap = l := by
  have hlen := length_toList hr
  rw [h, List.length_cons] at hlen
  have hcount := hr.count_le
  obtain ⟨b, hb⟩ := Option.ne_none_iff_exists'.mp (hr.isSome 0 (by omega))
  rw [Nat.add_zero, Nat.mod_eq_of_lt hr.head_lt] at hb
  -- the remaining slots are the old ones, one offset further on
  have hrest : ∀ i < r.count - 1,
      Function.update r.items r.head none (((r.head + 1) % cap + i) % cap) =
        r.items ((r.head + (i + 1)) % cap) := by
    intro i hi
    rw [Nat.mod_add_mod, Nat.add_assoc, Nat.add_comm 1 i]
    refine Function.update_of_ne (fun heq => ?_) _ _
    have heq' : (r.head + (i + 1)) % cap = (r.head + 0) % cap := by
      rw [heq, Nat.add_zero, Nat.mod_eq_of_lt hr.head_lt]
    have := offset_inj (by omega) (by omega) heq'
    omega
  have hsplit : r.toList cap = b :: (List.range (r.count - 1)).filterMap
      fun i => r.items ((r.head + (i + 1)) % cap) := by
    have hc : r.count = (r.count - 1) + 1 := by omega
    unfold toList
    rw [hc, List.range_succ_eq_map, List.filterMap_cons]
    simp only [Nat.add_zero, Nat.mod_eq_of_lt hr.head_lt, hb, List.filterMap_map]
    rfl
  rw [h] at hsplit
  obtain ⟨rfl, hl⟩ := List.cons.inj hsplit
  refine ⟨(r.take cap).2, ?_, ?_, ⟨?_, ?_, ?_, ?_⟩, ?_⟩
  · rw [pop, if_neg (by omega)]
    exact Prod.ext hb rfl
  · exact Prod.ext hb rfl
  · simp only [take]
    omega
  · exact Nat.mod_lt _ (by omega)
  · simp only [take]
    rw [Nat.mod_add_mod, hr.tail_eq]
    congr 1
    omega
  · intro i hi
    simp only [take] at hi ⊢
    rw [hrest i hi]
    exact hr.isSome (i + 1) (by omega)
  · rw [hl]
    unfold toList take
    exact List.filterMap_congr fun i hi => hrest i (List.mem_range.mp hi)

/-! ## Removing from the middle -/

/-- Move the items after a hole forward, until the hole is next to the tail. -/
def compact (cap tail : ℕ) : ℕ → (ℕ → Option α) → ℕ → (ℕ → Option α) × ℕ
  | 0, items, cur => (items, cur)
  | fuel + 1, items, cur =>
      let next := (cur + 1) % cap
      if cur ≠ tail ∧ next ≠ tail then
        compact cap tail fuel
          (Function.update (Function.update items cur (items next)) next none) next
      else (items, cur)

/-- Remove the first item, counted from the head, that meets a test.  The count is a machine
word. -/
def removeBy (cap : ℕ) (r : Ring α) (p : α → Bool) : Ring α :=
  match (List.range cap).find? fun i => (r.items ((r.head + i) % cap)).any p with
  | none => r
  | some i =>
      let idx := (r.head + i) % cap
      let c := compact cap r.tail cap (Function.update r.items idx none) idx
      { r with items := c.1, tail := c.2, count := (r.count + 2 ^ 64 - 1) % 2 ^ 64 }

/-! ## Which items there are -/

/-- Some slot holds the item. -/
def Holds (r : Ring α) (a : α) : Prop := ∃ i, r.items i = some a

variable {κ : Type*} {key : α → κ}

/-- The slots in use are those of the array, and no two of them hold items of one key. -/
structure Distinct (cap : ℕ) (key : α → κ) (r : Ring α) : Prop where
  head_lt : r.head < cap
  tail_lt : r.tail < cap
  bounded : ∀ i a, r.items i = some a → i < cap
  single : ∀ i j a b, r.items i = some a → r.items j = some b → key a = key b → i = j

theorem distinct_empty (h : 0 < cap) : Distinct cap key (empty : Ring α) where
  head_lt := h
  tail_lt := h
  bounded i a hi := by cases hi
  single i j a b hi := by cases hi

theorem not_holds_empty (a : α) : ¬ (empty : Ring α).Holds a := by
  rintro ⟨i, hi⟩
  cases hi

/-- Pushing an item with a key that is not in use. -/
theorem Distinct.push (hr : Distinct cap key r) (h : r.push cap a = some r')
    (hnew : ∀ b, r.Holds b → key b ≠ key a) :
    Distinct cap key r' ∧ ∀ b, r'.Holds b → b = a ∨ r.Holds b := by
  obtain ⟨hc, rfl⟩ := push_eq_some h
  have hitem : ∀ i b, Function.update r.items r.tail (some a) i = some b →
      (i = r.tail ∧ b = a) ∨ r.items i = some b := by
    intro i b hi
    by_cases hit : i = r.tail
    · rw [hit, Function.update_self, Option.some.injEq] at hi
      exact .inl ⟨hit, hi.symm⟩
    · rw [Function.update_of_ne hit] at hi
      exact .inr hi
  refine ⟨⟨hr.head_lt, Nat.mod_lt _ (by omega), fun i b hi => ?_, fun i j b c hi hj hk => ?_⟩,
    fun b hb => ?_⟩
  · rcases hitem i b hi with ⟨rfl, -⟩ | hi
    · exact hr.tail_lt
    · exact hr.bounded i b hi
  · rcases hitem i b hi with ⟨hit, hba⟩ | hi'
    · rcases hitem j c hj with ⟨hjt, -⟩ | hj'
      · rw [hit, hjt]
      · rw [hba] at hk
        exact absurd hk.symm (hnew c ⟨j, hj'⟩)
    · rcases hitem j c hj with ⟨-, hca⟩ | hj'
      · rw [hca] at hk
        exact absurd hk (hnew b ⟨i, hi'⟩)
      · exact hr.single i j b c hi' hj' hk
  · obtain ⟨i, hi⟩ := hb
    rcases hitem i b hi with ⟨-, rfl⟩ | hi
    · exact .inl rfl
    · exact .inr ⟨i, hi⟩

/-- What is popped was there, and nothing of its key is left. -/
theorem Distinct.pop (hr : Distinct cap key r) :
    Distinct cap key (r.pop cap).2 ∧ (∀ a, (r.pop cap).1 = some a → r.Holds a) ∧
      ∀ b, (r.pop cap).2.Holds b → r.Holds b ∧ ∀ a, (r.pop cap).1 = some a → key b ≠ key a := by
  unfold Ring.pop
  by_cases hc : r.count = 0
  · rw [if_pos hc]
    refine ⟨hr, fun d hd => ?_, fun b hb => ⟨hb, fun d hd => ?_⟩⟩
    · cases hd
    · cases hd
  · rw [if_neg hc]
    have hitem : ∀ i b, Function.update r.items r.head none i = some b →
        i ≠ r.head ∧ r.items i = some b := by
      intro i b hi
      by_cases hih : i = r.head
      · rw [hih, Function.update_self] at hi
        cases hi
      · rw [Function.update_of_ne hih] at hi
        exact ⟨hih, hi⟩
    have hcap : 0 < cap := lt_of_le_of_lt (Nat.zero_le _) hr.head_lt
    refine ⟨⟨Nat.mod_lt _ hcap, hr.tail_lt, fun i b hi => ?_, fun i j b c hi hj hk => ?_⟩,
      fun b hb => ⟨r.head, hb⟩, fun b hb => ?_⟩
    · exact hr.bounded i b (hitem i b hi).2
    · exact hr.single i j b c (hitem i b hi).2 (hitem j c hj).2 hk
    · obtain ⟨i, hi⟩ := hb
      obtain ⟨hne, hi⟩ := hitem i b hi
      exact ⟨⟨i, hi⟩, fun d hd hk => hne (hr.single i r.head b d hi hd hk)⟩

/-- Compaction only renames the slots. -/
theorem compact_spec (hcap : 2 ≤ cap) (tail fuel : ℕ) (items : ℕ → Option α) {cur : ℕ}
    (hcur : cur < cap) (hhole : items cur = none)
    (hb : ∀ i a, items i = some a → i < cap) :
    (compact cap tail fuel items cur).2 < cap ∧
    (∀ i a, (compact cap tail fuel items cur).1 i = some a → i < cap) ∧
    ∃ σ : Equiv.Perm ℕ, ∀ i, (compact cap tail fuel items cur).1 i = items (σ i) := by
  induction fuel generalizing items cur with
  | zero => exact ⟨hcur, hb, Equiv.refl ℕ, fun _ => rfl⟩
  | succ fuel ih =>
    unfold compact
    by_cases hc : cur ≠ tail ∧ (cur + 1) % cap ≠ tail
    · simp only [hc, ne_eq, not_false_eq_true, and_self, if_true]
      set next := (cur + 1) % cap with hnext
      have hlt : next < cap := Nat.mod_lt _ (by omega)
      have hne : cur ≠ next := by
        intro heq
        rcases Nat.lt_or_ge (cur + 1) cap with hl | hl
        · rw [Nat.mod_eq_of_lt hl] at hnext
          omega
        · have : cur + 1 = cap := by omega
          rw [this, Nat.mod_self] at hnext
          omega
      have hswap : ∀ i, Function.update (Function.update items cur (items next)) next none i =
          items (Equiv.swap cur next i) := by
        intro i
        by_cases hin : i = next
        · rw [hin, Function.update_self, Equiv.swap_apply_right, hhole]
        · rw [Function.update_of_ne hin]
          by_cases hic : i = cur
          · rw [hic, Function.update_self, Equiv.swap_apply_left]
          · rw [Function.update_of_ne hic, Equiv.swap_apply_of_ne_of_ne hic hin]
      have hb' : ∀ i a, Function.update (Function.update items cur (items next)) next none i =
          some a → i < cap := by
        intro i a hi
        by_cases hic : i = cur
        · rw [hic]
          exact hcur
        · by_cases hin : i = next
          · rw [hin]
            exact hlt
          · rw [hswap, Equiv.swap_apply_of_ne_of_ne hic hin] at hi
            exact hb i a hi
      obtain ⟨h1, h2, σ, hσ⟩ := ih _ hlt (Function.update_self ..) hb'
      exact ⟨h1, h2, σ.trans (Equiv.swap cur next), fun i => by rw [hσ, hswap]; rfl⟩
    · rw [if_neg hc]
      exact ⟨hcur, hb, Equiv.refl ℕ, fun _ => rfl⟩

/-- Removing by key leaves nothing of that key, whatever the indices of the ring are. -/
theorem Distinct.removeBy (hcap : 2 ≤ cap) (hr : Distinct cap key r) {p : α → Bool} {k : κ}
    (hp : ∀ a, p a = true ↔ key a = k) :
    Distinct cap key (r.removeBy cap p) ∧
      ∀ b, (r.removeBy cap p).Holds b → r.Holds b ∧ key b ≠ k := by
  unfold Ring.removeBy
  cases hf : (List.range cap).find? fun i => (r.items ((r.head + i) % cap)).any p with
  | none =>
    refine ⟨hr, fun b hb => ⟨hb, fun hk => ?_⟩⟩
    obtain ⟨i, hi⟩ := hb
    have hilt := hr.bounded i b hi
    have hhead := hr.head_lt
    rw [List.find?_eq_none] at hf
    -- every slot is at some offset from the head
    have hoff : (r.head + (i + cap - r.head) % cap) % cap = i := by
      rw [Nat.add_mod_mod]
      have : r.head + (i + cap - r.head) = i + cap := by omega
      rw [this, Nat.add_mod_right, Nat.mod_eq_of_lt hilt]
    refine hf ((i + cap - r.head) % cap) (List.mem_range.mpr (Nat.mod_lt _ (by omega))) ?_
    rw [hoff, hi]
    exact (hp b).mpr hk
  | some i =>
    have hany := List.find?_some hf
    obtain ⟨d, hd, hpd⟩ := (Option.any_eq_true _ _).mp hany
    set idx := (r.head + i) % cap with hidx
    have hlt : idx < cap := Nat.mod_lt _ (by omega)
    have hitem : ∀ j b, Function.update r.items idx none j = some b →
        j ≠ idx ∧ r.items j = some b := by
      intro j b hj
      by_cases hji : j = idx
      · rw [hji, Function.update_self] at hj
        cases hj
      · rw [Function.update_of_ne hji] at hj
        exact ⟨hji, hj⟩
    obtain ⟨h1, h2, σ, hσ⟩ := compact_spec hcap r.tail cap (Function.update r.items idx none) hlt
      (Function.update_self ..) fun j b hj => hr.bounded j b (hitem j b hj).2
    simp only [← hidx]
    refine ⟨⟨hr.head_lt, h1, h2, fun j l b c hj hl hk => ?_⟩, fun b hb => ?_⟩
    · simp only [hσ] at hj hl
      exact σ.injective (hr.single _ _ b c (hitem _ _ hj).2 (hitem _ _ hl).2 hk)
    · obtain ⟨j, hj⟩ := hb
      simp only [hσ] at hj
      obtain ⟨hne, hj⟩ := hitem _ _ hj
      refine ⟨⟨σ j, hj⟩, fun hk => hne (hr.single _ _ b d hj hd ?_)⟩
      rw [hk, (hp d).mp hpd]

end Ring

end QuackOS
