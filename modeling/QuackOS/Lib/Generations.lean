import QuackOS.Lib.Slots

/-!
# Generations of slots

A table with reusable slots names an entry by its slot and by a counter of how often the slot
was given out, so that the name of an entry that is gone does not fit the slot's next entry.  The
counter is a machine word: after `m` allocations of a slot it comes round.

* `next` — the counter of the next allocation;
* `issued` — how often a slot occurs among the names given out;
* `Numbered` — counters and names given out belong together.  `Numbered.fresh` says when the next
  name is a new one, `Numbered.reissued` when it is not.
-/

namespace QuackOS.Generations

variable {m g i : ℕ}

/-- The counter of the next allocation of a slot: 0 is a slot that was never given out. -/
def next (m g : ℕ) : ℕ := if g = 0 then 1 else (g + 1) % m

theorem next_eq (hm : 1 < m) : next m g = (g + 1) % m := by
  unfold next
  split
  · next h => rw [h, Nat.zero_add, Nat.mod_eq_of_lt hm]
  · rfl

theorem next_mod (hm : 1 < m) (k : ℕ) : next m (k % m) = (k + 1) % m := by
  rw [next_eq hm, Nat.mod_add_mod]

/-! ## The names given out -/

/-- How often slot `i` was given out. -/
def issued (names : List (ℕ × ℕ)) (i : ℕ) : ℕ := names.countP fun p => p.1 = i

theorem issued_append_self (names : List (ℕ × ℕ)) (i g : ℕ) :
    issued (names ++ [(i, g)]) i = issued names i + 1 := by
  simp [issued]

theorem issued_append_of_ne (names : List (ℕ × ℕ)) {i j : ℕ} (h : j ≠ i) (g : ℕ) :
    issued (names ++ [(i, g)]) j = issued names j := by
  simp [issued, Ne.symm h]

/-- Counters and names given out belong together: the `k`-th name of a slot has `k`, cut to the
width of the counter. -/
structure Numbered (m : ℕ) (gens : ℕ → ℕ) (names : List (ℕ × ℕ)) : Prop where
  counter : ∀ i, gens i = issued names i % m
  mem_iff : ∀ i g, (i, g) ∈ names ↔ ∃ k, 1 ≤ k ∧ k ≤ issued names i ∧ g = k % m

variable {gens : ℕ → ℕ} {names : List (ℕ × ℕ)}

theorem numbered_nil : Numbered m (fun _ => 0) [] where
  counter i := by simp [issued]
  mem_iff i g := by
    simp only [List.not_mem_nil, issued, List.countP_nil, false_iff]
    rintro ⟨k, h1, h0, -⟩
    omega

theorem Numbered.next_eq (h : Numbered m gens names) (hm : 1 < m) (i : ℕ) :
    next m (gens i) = (issued names i + 1) % m := by
  rw [h.counter i, next_mod hm]

/-- One more allocation. -/
theorem Numbered.push (h : Numbered m gens names) (hm : 1 < m) (i : ℕ) :
    Numbered m (Function.update gens i (next m (gens i)))
      (names ++ [(i, next m (gens i))]) where
  counter j := by
    by_cases hj : j = i
    · subst hj
      rw [Function.update_self, issued_append_self, h.next_eq hm]
    · rw [Function.update_of_ne hj, issued_append_of_ne _ hj, h.counter]
  mem_iff j g := by
    rw [List.mem_append, List.mem_singleton, Prod.mk.injEq, h.mem_iff]
    by_cases hj : j = i
    · subst hj
      rw [issued_append_self, h.next_eq hm]
      constructor
      · rintro (⟨k, h1, hk, hg⟩ | ⟨-, hg⟩)
        · exact ⟨k, h1, by omega, hg⟩
        · exact ⟨issued names j + 1, by omega, le_refl _, hg⟩
      · rintro ⟨k, h1, hk, hg⟩
        rcases Nat.lt_or_eq_of_le hk with hlt | rfl
        · exact Or.inl ⟨k, h1, by omega, hg⟩
        · exact Or.inr ⟨rfl, hg⟩
    · rw [issued_append_of_ne _ hj]
      exact or_iff_left fun hc => hj hc.1

/-- The next name of a slot is new as long as the counter has not come round. -/
theorem Numbered.fresh (h : Numbered m gens names) (hm : 1 < m) (hi : issued names i < m) :
    (i, next m (gens i)) ∉ names := by
  rw [h.mem_iff, h.next_eq hm]
  rintro ⟨k, h1, hk, heq⟩
  rw [Nat.mod_eq_of_lt (show k < m by omega)] at heq
  rcases Nat.lt_or_ge (issued names i + 1) m with hlt | hge
  · rw [Nat.mod_eq_of_lt hlt] at heq
    omega
  · rw [show issued names i + 1 = m by omega, Nat.mod_self] at heq
    omega

/-- Once it has come round, the next name is one of the slot's first round. -/
theorem Numbered.reissued (h : Numbered m gens names) (hm : 1 < m) (hi : m ≤ issued names i) :
    (i, next m (gens i)) ∈ names := by
  rw [h.mem_iff, h.next_eq hm]
  exact ⟨issued names i + 1 - m, by omega, by omega, Nat.mod_eq_sub_mod (by omega)⟩

/-- A name of a slot that was given out fewer than `m` times is not 0. -/
theorem Numbered.pos (h : Numbered m gens names) (hi : issued names i < m) {g : ℕ}
    (hg : (i, g) ∈ names) : 0 < g := by
  obtain ⟨k, h1, hk, rfl⟩ := (h.mem_iff i g).mp hg
  rw [Nat.mod_eq_of_lt (by omega)]
  omega

end QuackOS.Generations
