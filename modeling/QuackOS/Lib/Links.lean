import Mathlib.Algebra.BigOperators.Group.Finset.Basic
import Mathlib.Logic.Function.Basic

/-!
# Lists threaded through a table

Free lists are often kept as one table of links: `next i` is the node behind node `i`, and each
list has a head.  Several lists share the table.

* `Chain` — the nodes of a list in order, with one lemma for each way the table changes;
* `Threaded` — several lists of one table, with what each of these ways does to all of them;
* `sum_update` — sums over several lists when one of them changes.
-/

namespace QuackOS.Links

/-- The nodes from a head on, in order. -/
def Chain (next : ℕ → Option ℕ) : Option ℕ → List ℕ → Prop
  | head, [] => head = none
  | head, i :: L => head = some i ∧ Chain next (next i) L

section Chain

variable {next next' : ℕ → Option ℕ} {head : Option ℕ} {L A : List ℕ} {i p : ℕ}

@[simp] theorem chain_nil : Chain next head [] ↔ head = none := Iff.rfl

@[simp] theorem chain_cons : Chain next head (i :: L) ↔ head = some i ∧ Chain next (next i) L :=
  Iff.rfl

/-- A list does not see changes to other nodes. -/
theorem Chain.congr (h : Chain next head L) (hsame : ∀ i ∈ L, next' i = next i) :
    Chain next' head L := by
  induction L generalizing head with
  | nil => exact h
  | cons i L ih =>
    refine ⟨h.1, ?_⟩
    rw [hsame i (List.mem_cons_self ..)]
    exact ih h.2 fun j hj => hsame j (List.mem_cons_of_mem i hj)

theorem Chain.update_of_notMem (h : Chain next head L) (hi : i ∉ L) (o : Option ℕ) :
    Chain (Function.update next i o) head L := by
  refine h.congr fun j hj => ?_
  rw [Function.update_of_ne]
  rintro rfl
  exact hi hj

/-- A node in front of a list. -/
theorem Chain.push (h : Chain next head L) (hi : i ∉ L) :
    Chain (Function.update next i head) (some i) (i :: L) := by
  refine ⟨rfl, ?_⟩
  rw [Function.update_self]
  exact h.update_of_notMem hi head

/-- The list without its first node. -/
theorem Chain.pop (h : Chain next head (i :: L)) (hi : i ∉ L) :
    head = some i ∧ Chain (Function.update next i none) (next i) L :=
  ⟨h.1, h.2.update_of_notMem hi none⟩

theorem Chain.head_eq (h : Chain next head L) : head = L.head? := by
  cases L with
  | nil => exact h
  | cons i L => exact h.1

/-- A head starts one list. -/
theorem Chain.unique {L' : List ℕ} (h : Chain next head L) (h' : Chain next head L') : L = L' := by
  induction L generalizing head L' with
  | nil =>
    cases L' with
    | nil => rfl
    | cons j L' =>
      rw [chain_nil.mp h] at h'
      cases h'.1
  | cons i L ih =>
    obtain ⟨rfl, htail⟩ := h
    cases L' with
    | nil => cases h'
    | cons j L' =>
      obtain ⟨hj, htail'⟩ := h'
      cases hj
      rw [ih htail htail']

/-- A head without a link behind it is the whole list. -/
theorem Chain.eq_singleton (h : Chain next (some i) L) (hi : next i = none) : L = [i] := by
  cases L with
  | nil => cases h
  | cons j L =>
    obtain ⟨hj, htail⟩ := h
    cases hj
    rw [hi] at htail
    cases L with
    | nil => rfl
    | cons k L => cases htail.1

/-- A list can be left off at any node. -/
theorem Chain.split (h : Chain next head (A ++ i :: L)) : Chain next (some i) (i :: L) := by
  induction A generalizing head with
  | nil => exact ⟨rfl, h.2⟩
  | cons a A ih => exact ih h.2

/-- The list up to a node: the link behind it is cleared. -/
theorem Chain.cut (h : Chain next head (A ++ p :: i :: L)) (hnd : (A ++ p :: i :: L).Nodup) :
    Chain (Function.update (Function.update next i none) p none) head (A ++ [p]) := by
  induction A generalizing head with
  | nil =>
    refine ⟨h.1, ?_⟩
    rw [Function.update_self]
    rfl
  | cons a A ih =>
    have hnd' := List.nodup_cons.mp hnd
    have ha : a ≠ p ∧ a ≠ i := by
      constructor
      · rintro rfl
        exact hnd'.1 (by simp)
      · rintro rfl
        exact hnd'.1 (by simp)
    refine ⟨h.1, ?_⟩
    rw [Function.update_of_ne ha.1, Function.update_of_ne ha.2]
    exact ih h.2 hnd'.2

end Chain

/-! ## Several lists -/

/-- The lists of one table: each is chained from its head, and no node is in two of them. -/
structure Threaded (n : ℕ) (next head : ℕ → Option ℕ) (L : ℕ → List ℕ) : Prop where
  chain : ∀ o < n, Chain next (head o) (L o)
  nodup : ∀ o < n, (L o).Nodup
  apart : ∀ o < n, ∀ k < n, o ≠ k → ∀ i ∈ L o, i ∉ L k

section Threaded

variable {n o i p : ℕ} {next head : ℕ → Option ℕ} {L : ℕ → List ℕ} {A l : List ℕ}

/-- A node in front of one list. -/
theorem Threaded.push (h : Threaded n next head L) (hi : ∀ k < n, i ∉ L k) {k : ℕ} (hk : k < n) :
    Chain (Function.update next i (head o)) (Function.update head o (some i) k)
      (Function.update L o (i :: L o) k) := by
  by_cases hko : k = o
  · subst hko
    simp only [Function.update_self]
    exact (h.chain k hk).push (hi k hk)
  · rw [Function.update_of_ne hko, Function.update_of_ne hko]
    exact (h.chain k hk).update_of_notMem (hi k hk) _

/-- One list without its first node. -/
theorem Threaded.pop (h : Threaded n next head L) (ho : o < n) (hl : L o = i :: l) {k : ℕ}
    (hk : k < n) : Chain (Function.update next i none) (Function.update head o (next i) k)
      (Function.update L o l k) := by
  have hch := h.chain k hk
  by_cases hko : k = o
  · subst hko
    have hnd := h.nodup k hk
    rw [hl] at hch hnd
    simp only [Function.update_self]
    exact (hch.pop (List.nodup_cons.mp hnd).1).2
  · rw [Function.update_of_ne hko, Function.update_of_ne hko]
    refine hch.update_of_notMem (h.apart o ho k hk (Ne.symm hko) i ?_) none
    rw [hl]
    exact List.mem_cons_self ..

/-- One list cut off behind a node. -/
theorem Threaded.cut (h : Threaded n next head L) (ho : o < n) (hl : L o = A ++ p :: i :: l)
    {k : ℕ} (hk : k < n) :
    Chain (Function.update (Function.update next i none) p none) (head k)
      (Function.update L o (A ++ [p]) k) := by
  have hch := h.chain k hk
  by_cases hko : k = o
  · subst hko
    have hnd := h.nodup k hk
    rw [hl] at hch hnd
    rw [Function.update_self]
    exact hch.cut hnd
  · rw [Function.update_of_ne hko]
    have hother := h.apart o ho k hk (Ne.symm hko)
    refine (hch.update_of_notMem (hother i ?_) none).update_of_notMem (hother p ?_) none
    · simp [hl]
    · simp [hl]

end Threaded

/-- A sum over the lists of a table when one list is replaced. -/
theorem sum_update {α : Type*} {n k : ℕ} (hk : k < n) (g : ℕ → α → ℕ) (L : ℕ → α) (l : α) :
    (∑ o ∈ Finset.range n, g o (Function.update L k l o)) + g k (L k) =
      (∑ o ∈ Finset.range n, g o (L o)) + g k l := by
  have hmem : k ∈ Finset.range n := Finset.mem_range.mpr hk
  have hsplit : ∀ f : ℕ → ℕ, ∑ o ∈ Finset.range n, f o =
      f k + ∑ o ∈ (Finset.range n).erase k, f o :=
    fun f => (Finset.add_sum_erase _ f hmem).symm
  have hrest : ∑ o ∈ (Finset.range n).erase k, g o (Function.update L k l o) =
      ∑ o ∈ (Finset.range n).erase k, g o (L o) := by
    refine Finset.sum_congr rfl fun o ho => ?_
    rw [Function.update_of_ne (Finset.ne_of_mem_erase ho)]
  rw [hsplit fun o => g o (Function.update L k l o), hsplit fun o => g o (L o), hrest,
    Function.update_self]
  omega

end QuackOS.Links
