import Mathlib.Data.Set.Basic
import QuackOS.Mm.Syscalls

/-!
# The loops over the user leaves of a table

`free_user_data_pages` and `clone_user_range` visit every EL0-accessible page of a table by
four nested loops that read the tables as they go.

* `UserLeaf` — a path of four indices with the descriptor of a page that the loops visit;
* `forUserLeaves_ends` — **the rule for the loops**: as long as the body leaves the tables
  alone, an invariant of the pages visited so far ends as one of all the user leaves.
-/

namespace QuackOS.Mm

open Radix (reach stop IsTree)

/-- A page of the tables in `mem` that EL0 may access. -/
def UserLeaf (mem : ℕ → Index → Word) (root : ℕ) (q : List Index) (w : Word) : Prop :=
  ∃ p n i, q = p ++ [i] ∧ p.length = 3 ∧ reach Pte.child mem root p = some n ∧ mem n i = w ∧
    w &&& 1 ≠ 0 ∧ w &&& Pte.el0Bit ≠ 0

/-- The user leaves below a path. -/
def leavesUnder (mem : ℕ → Index → Word) (root : ℕ) (p : List Index) : Set (List Index) :=
  {q | p <+: q ∧ ∃ w, UserLeaf mem root q w}

/-- Below a word that is not a table there is no user leaf. -/
theorem leavesUnder_eq_empty {mem : ℕ → Index → Word} {root n : ℕ} {p : List Index} {i : Index}
    (hp : reach Pte.child mem root p = some n) (hl : p.length ≤ 2)
    (hc : Pte.child (mem n i) = none) : leavesUnder mem root (p ++ [i]) = ∅ := by
  rw [Set.eq_empty_iff_forall_notMem]
  rintro q ⟨⟨r, rfl⟩, w, p', n', j, heq, hp', hr, -⟩
  -- the table of the leaf lies below the word
  have hpre : p ++ [i] <+: p' := by
    have h1 : p ++ [i] <+: p' ++ [j] := heq ▸ List.prefix_append _ _
    apply List.prefix_of_prefix_length_le h1 (List.prefix_append p' [j])
    simp only [List.length_append, List.length_cons, List.length_nil]
    omega
  obtain ⟨s, rfl⟩ := hpre
  rw [Radix.reach_append, Radix.reach_concat, hp, Option.bind_some, hc] at hr
  cases hr

/-- The user leaves below a path that go on with one of the indices. -/
def leavesOf (mem : ℕ → Index → Word) (root : ℕ) (p : List Index) (ix : List Index) :
    Set (List Index) :=
  {q | ∃ i ∈ ix, q ∈ leavesUnder mem root (p ++ [i])}

section Sets

variable (mem : ℕ → Index → Word) (root : ℕ) (p : List Index)

@[simp] theorem leavesOf_nil : leavesOf mem root p [] = ∅ := by
  ext q
  simp [leavesOf]

theorem leavesOf_concat (done : List Index) (i : Index) : leavesOf mem root p (done ++ [i]) =
    leavesOf mem root p done ∪ leavesUnder mem root (p ++ [i]) := by
  ext q
  simp only [leavesOf, Set.mem_union, Set.mem_ofPred_eq, List.mem_append, List.mem_singleton]
  constructor
  · rintro ⟨j, hj | rfl, hq⟩
    · exact Or.inl ⟨j, hj, hq⟩
    · exact Or.inr hq
  · rintro (⟨j, hj, hq⟩ | hq)
    · exact ⟨j, Or.inl hj, hq⟩
    · exact ⟨i, Or.inr rfl, hq⟩

/-- Every leaf below a path that is not a whole one goes on with some index. -/
theorem leavesOf_all (hl : p.length ≤ 3) {ix : List Index} (hmem : ∀ i, i ∈ ix) :
    leavesOf mem root p ix = leavesUnder mem root p := by
  ext q
  constructor
  · rintro ⟨i, -, hq, hw⟩
    exact ⟨(List.prefix_append p [i]).trans hq, hw⟩
  · rintro ⟨⟨r, rfl⟩, w, hw⟩
    have hw' := hw
    obtain ⟨p', n, i, heq, hp', -⟩ := hw'
    have hlen := congrArg List.length heq
    simp only [List.length_append, List.length_cons, List.length_nil] at hlen
    obtain ⟨j, r', rfl⟩ := List.exists_cons_of_length_pos (l := r) (by omega)
    exact ⟨j, hmem j, ⟨r', by simp⟩, w, hw⟩

variable {mem root p}

/-- A leaf that goes on with one index does not go on with another. -/
theorem not_prefix_of_leavesOf {done : List Index} {i : Index} {q : List Index} (hi : i ∉ done)
    (hq : q ∈ leavesOf mem root p done) : ¬ p ++ [i] <+: q := by
  obtain ⟨j, hj, hjq, -⟩ := hq
  intro hpre
  have heq : p ++ [j] = p ++ [i] := by
    apply (List.prefix_of_prefix_length_le hjq hpre (by simp)).eq_of_length (by simp)
  have : j = i := by simpa using heq
  subst this
  exact hi hj

end Sets

section Rule

variable {σ : Type*} {page : σ → ℕ → Index → Word} {root : ℕ} {mem : ℕ → Index → Word}
  {I : Set (List Index) → σ → Prop} {E : Option σ → Prop}

/-- The rule for one of the loops, over the words of the table that `p` leads to. -/
theorem loop_ends {body : σ → Index → Except (Option σ) σ} {p : List Index} (hl : p.length ≤ 3)
    (hbody : ∀ i S s, (∀ q ∈ S, ¬ p ++ [i] <+: q) → I S s →
      Run.Ends (body s i) (I (S ∪ leavesUnder mem root (p ++ [i]))) E)
    {S : Set (List Index)} {s : σ} (hS : ∀ q ∈ S, ¬ p <+: q) (hI : I S s) :
    Run.Ends (indices.foldlM body s) (I (S ∪ leavesUnder mem root p)) E := by
  have hmem : ∀ i : Index, i ∈ indices := List.mem_finRange
  have hnodup : indices.Nodup := List.nodup_finRange 512
  rw [← leavesOf_all mem root p hl hmem]
  generalize indices = ix at hnodup ⊢
  refine Run.foldlM_ends (J := fun done s => I (S ∪ leavesOf mem root p done) s) ?_
    (by rwa [leavesOf_nil, Set.union_empty])
  intro done i rest s has hJ
  have hnd : i ∉ done := by
    rw [has] at hnodup
    intro hi
    exact List.disjoint_of_nodup_append hnodup hi (List.mem_cons_self ..)
  have h := hbody i _ s ?_ hJ
  · rw [leavesOf_concat, ← Set.union_assoc]
    exact h
  · rintro q (hq | hq)
    · exact fun hpre => hS q hq ((List.prefix_append p [i]).trans hpre)
    · exact not_prefix_of_leavesOf hnd hq

/-- The body of the innermost loop visits the word if it is a user leaf. -/
theorem leaf_ends {onPage : σ → List Index → Word → Except (Option σ) σ} {p : List Index} {n : ℕ}
    {i : Index} {S : Set (List Index)} {s : σ} (hp : reach Pte.child mem root p = some n)
    (hl : p.length = 3)
    (hpage : p ++ [i] ∉ S → UserLeaf mem root (p ++ [i]) (mem n i) →
      Run.Ends (onPage s (p ++ [i]) (mem n i)) (I (S ∪ {p ++ [i]})) E)
    (hS : ∀ q ∈ S, ¬ p ++ [i] <+: q) (hI : I S s) :
    Run.Ends (if mem n i &&& 1 = 0 then .ok s else if mem n i &&& Pte.el0Bit = 0 then .ok s
      else onPage s (p ++ [i]) (mem n i)) (I (S ∪ leavesUnder mem root (p ++ [i]))) E := by
  -- below a path of full length there is the path itself, or nothing
  have hself : ∀ q ∈ leavesUnder mem root (p ++ [i]),
      q = p ++ [i] ∧ mem n i &&& 1 ≠ 0 ∧ mem n i &&& Pte.el0Bit ≠ 0 := by
    rintro q ⟨hq, w, p', n', j, rfl, hl', hr, rfl, hw⟩
    have heq := hq.eq_of_length (by simp [hl, hl'])
    obtain ⟨rfl, hi⟩ := List.append_inj' heq rfl
    cases hi
    rw [hp] at hr
    cases hr
    exact ⟨rfl, hw⟩
  have hskip : mem n i &&& 1 = 0 ∨ mem n i &&& Pte.el0Bit = 0 →
      I (S ∪ leavesUnder mem root (p ++ [i])) s := by
    intro hno
    have : leavesUnder mem root (p ++ [i]) = ∅ := by
      rw [Set.eq_empty_iff_forall_notMem]
      intro q hq
      obtain ⟨-, hv, he⟩ := hself q hq
      rcases hno with h | h
      · exact hv h
      · exact he h
    rw [this, Set.union_empty]
    exact hI
  split
  case isTrue hz => exact Run.ends_ok (hskip (Or.inl hz))
  case isFalse hv =>
  split
  case isTrue hz => exact Run.ends_ok (hskip (Or.inr hz))
  case isFalse he =>
  have hleaf : UserLeaf mem root (p ++ [i]) (mem n i) := ⟨p, n, i, rfl, hl, hp, rfl, hv, he⟩
  have hsingle : leavesUnder mem root (p ++ [i]) = {p ++ [i]} := by
    ext q
    constructor
    · exact fun hq => (hself q hq).1
    · rintro rfl
      exact ⟨List.prefix_refl _, _, hleaf⟩
  rw [hsingle]
  exact hpage (fun hq => hS _ hq (List.prefix_refl _)) hleaf

/-- A word that is no table is left out. -/
theorem skip_ends {p : List Index} {n : ℕ} {i : Index} {S : Set (List Index)} {s : σ}
    (hp : reach Pte.child mem root p = some n) (hl : p.length ≤ 2)
    (ht : Pte.isTable (mem n i) = false) (hI : I S s) :
    Run.Ends (.ok s) (I (S ∪ leavesUnder mem root (p ++ [i]))) E := by
  rw [leavesUnder_eq_empty hp hl (Pte.child_eq_none ht), Set.union_empty]
  exact Run.ends_ok hI

/-- A table leads on. -/
theorem reach_table {p : List Index} {n : ℕ} {i : Index} (hp : reach Pte.child mem root p = some n)
    (ht : Pte.isTable (mem n i) = true) :
    reach Pte.child mem root (p ++ [i]) = some (Pte.ppn (mem n i)) := by
  rw [Radix.reach_concat, hp, Option.bind_some, Pte.child_of_isTable ht]

/-- **The rule for the loops over the user leaves.**  The invariant speaks of the pages
visited so far and keeps the tables as they are in `mem`, which has no EL0-accessible block;
a body that fails ends all the loops. -/
theorem forUserLeaves_ends {onBlock onPage : σ → List Index → Word → Except (Option σ) σ} {s : σ}
    (htab : ∀ S s, I S s → ∀ p n, p.length ≤ 3 → reach Pte.child mem root p = some n →
      page s n = mem n)
    (hblock : ∀ p n i, p.length = 2 → reach Pte.child mem root p = some n →
      mem n i &&& 1 ≠ 0 → mem n i &&& 0b10 = 0 → mem n i &&& Pte.el0Bit = 0)
    (hpage : ∀ S s q w, I S s → q ∉ S → UserLeaf mem root q w →
      Run.Ends (onPage s q w) (I (S ∪ {q})) E)
    (hI : I ∅ s) :
    Run.Ends (forUserLeaves page root onBlock onPage s) (I {q | ∃ w, UserLeaf mem root q w}) E := by
  have hall : ∅ ∪ leavesUnder mem root [] = {q | ∃ w, UserLeaf mem root q w} := by
    rw [Set.empty_union]
    ext q
    simp [leavesUnder]
  rw [← hall]
  unfold forUserLeaves
  refine loop_ends (p := []) (by simp) ?_ (by simp) hI
  intro l0 S s hS hI
  have hroot : reach Pte.child mem root [] = some root := rfl
  have h0 : page s root = mem root := htab S s hI [] root (by simp) rfl
  dsimp only
  rw [h0]
  split
  case isTrue hne =>
    refine skip_ends hroot (by simp) ?_ hI
    simpa [Pte.isTable, Pte.descTable] using hne
  case isFalse heq =>
  have ht0 : Pte.isTable (mem root l0) = true := by
    simpa [Pte.isTable, Pte.descTable] using heq
  have hp1 := reach_table hroot ht0
  refine loop_ends (p := [] ++ [l0]) (by simp) ?_ hS hI
  intro l1 S s hS hI
  have h1 : page s (Pte.ppn (mem root l0)) = mem (Pte.ppn (mem root l0)) :=
    htab S s hI _ _ (by simp) hp1
  rw [h1]
  split
  case isTrue hz => exact skip_ends hp1 (by simp) (Pte.isTable_eq_false (Or.inl hz)) hI
  case isFalse hv1 =>
  split
  case isTrue hz => exact skip_ends hp1 (by simp) (Pte.isTable_eq_false (Or.inr hz)) hI
  case isFalse hb1 =>
  have hp2 := reach_table hp1 (Pte.isTable_iff.mpr ⟨hv1, hb1⟩)
  refine loop_ends (p := [] ++ [l0] ++ [l1]) (by simp) ?_ hS hI
  intro l2 S s hS hI
  have h2 := htab S s hI _ _ (by simp) hp2
  rw [h2]
  split
  case isTrue hz => exact skip_ends hp2 (by simp) (Pte.isTable_eq_false (Or.inl hz)) hI
  case isFalse hv2 =>
  split
  case isTrue hz =>
    rw [if_pos (hblock _ _ l2 (by simp) hp2 hv2 hz)]
    exact skip_ends hp2 (by simp) (Pte.isTable_eq_false (Or.inr hz)) hI
  case isFalse hb2 =>
  have hp3 := reach_table hp2 (Pte.isTable_iff.mpr ⟨hv2, hb2⟩)
  refine loop_ends (p := [] ++ [l0] ++ [l1] ++ [l2]) (by simp) ?_ hS hI
  intro l3 S s hS hI
  have h3 := htab S s hI _ _ (by simp) hp3
  rw [h3]
  exact leaf_ends hp3 (by simp) (hpage S s _ _ hI) hS hI

end Rule

end QuackOS.Mm
