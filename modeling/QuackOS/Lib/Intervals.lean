import Mathlib.Data.List.Sort

/-!
# Interval maps

A list of items, each standing for the half-open interval from `lo a` to `hi a`, is read as a
partial map: at `x` it has the item whose interval holds `x`.

* `InOrder` — every interval ends before the next one starts;
* `InOrder.find?_eq_some_iff` — then a scan from the front finds the one item at `x`;
* `InOrder.of_perm_append`, `InOrder.set` — an interval more, a longer interval;
* `InOrder.mem_take_iff` — a cut at the first interval that starts from `n` on.
-/

namespace QuackOS.Intervals

variable {α : Type*} {lo hi : α → ℕ} {as bs : List α} {a b : α} {x : ℕ}

/-- The intervals of the list come one after the other. -/
def InOrder (lo hi : α → ℕ) (as : List α) : Prop := as.Pairwise fun a b => hi a ≤ lo b

/-- Two intervals that do not meet. -/
def Apart (lo hi : α → ℕ) (a b : α) : Prop := hi a ≤ lo b ∨ hi b ≤ lo a

theorem Apart.symm (h : Apart lo hi a b) : Apart lo hi b a := Or.symm h

theorem InOrder.apart (h : InOrder lo hi as) : as.Pairwise (Apart lo hi) :=
  List.Pairwise.imp (fun hab => Or.inl hab) h

/-- At most one interval holds `x`. -/
theorem InOrder.unique (h : InOrder lo hi as) (ha : a ∈ as) (hb : b ∈ as)
    (hxa : lo a ≤ x ∧ x < hi a) (hxb : lo b ≤ x ∧ x < hi b) : a = b := by
  induction as with
  | nil => cases ha
  | cons c as ih =>
    obtain ⟨hc, hrest⟩ := List.pairwise_cons.mp h
    rcases List.mem_cons.mp ha with hac | ha' <;> rcases List.mem_cons.mp hb with hbc | hb'
    · rw [hac, hbc]
    · have := hc b hb'
      rw [hac] at hxa
      omega
    · have := hc a ha'
      rw [hbc] at hxb
      omega
    · exact ih hrest ha' hb'

/-- An interval that starts before another one ends before it. -/
theorem InOrder.hi_le (h : InOrder lo hi as) (hne : ∀ b ∈ as, lo b < hi b) (ha : a ∈ as)
    (hb : b ∈ as) (hlt : lo a < lo b) : hi a ≤ lo b := by
  obtain ⟨i, hi', rfl⟩ := List.mem_iff_getElem.mp ha
  obtain ⟨j, hj, rfl⟩ := List.mem_iff_getElem.mp hb
  rcases lt_trichotomy i j with hij | rfl | hji
  · exact List.pairwise_iff_getElem.mp h i j hi' hj hij
  · omega
  · have hord := List.pairwise_iff_getElem.mp h j i hj hi' hji
    have := hne _ hb
    omega

/-- A scan for the interval that holds `x` finds it, wherever it is. -/
theorem InOrder.find?_eq_some_iff (h : InOrder lo hi as) {p : α → Bool}
    (hp : ∀ b ∈ as, p b = true ↔ lo b ≤ x ∧ x < hi b) :
    as.find? p = some a ↔ a ∈ as ∧ lo a ≤ x ∧ x < hi a := by
  constructor
  · intro hfind
    have hmem := List.mem_of_find?_eq_some hfind
    have hpa := List.find?_some hfind
    exact ⟨hmem, (hp a hmem).mp hpa⟩
  · rintro ⟨hmem, hx⟩
    cases hfind : as.find? p with
    | none =>
      have := List.find?_eq_none.mp hfind a hmem
      exact absurd ((hp a hmem).mpr hx) this
    | some b =>
      have hb := List.mem_of_find?_eq_some hfind
      have hpb := List.find?_some hfind
      rw [h.unique hb hmem ((hp b hb).mp hpb) hx]

/-- Intervals that are pairwise apart are in order when they are sorted by their starts. -/
theorem InOrder.of_sorted (happart : as.Pairwise (Apart lo hi))
    (hsorted : as.Pairwise fun a b => lo a ≤ lo b) (hne : ∀ a ∈ as, lo a < hi a) :
    InOrder lo hi as := by
  refine List.Pairwise.imp_of_mem (fun {a b} _ hb hab => ?_) (happart.and hsorted)
  obtain ⟨hor, hle⟩ := hab
  have := hne b hb
  rcases hor with h | h
  · exact h
  · omega

/-- **An interval more.**  Sorted again, the list is in order, when the new interval meets none
of the old ones. -/
theorem InOrder.of_perm_append (h : InOrder lo hi as) (hne : ∀ b ∈ as, lo b < hi b)
    (ha : lo a < hi a) (hapart : ∀ b ∈ as, Apart lo hi b a) (hperm : bs.Perm (as ++ [a]))
    (hsorted : bs.Pairwise fun a b => lo a ≤ lo b) : InOrder lo hi bs := by
  refine InOrder.of_sorted ?_ hsorted fun b hb => ?_
  · rw [hperm.pairwise_iff fun hab => hab.symm, List.pairwise_append]
    refine ⟨h.apart, List.pairwise_singleton _ _, fun b hb c hc => ?_⟩
    rw [List.mem_singleton.mp hc]
    exact hapart b hb
  · rcases List.mem_append.mp (hperm.mem_iff.mp hb) with hb | hb
    · exact hne b hb
    · rw [List.mem_singleton.mp hb]
      exact ha

/-- What holds of an entry of a list in which one entry was replaced by a wider one. -/
theorem exists_mem_set_iff {i : ℕ} {a' : α} {P : α → Prop} {Q : Prop}
    (ha : as[i]? = some a) (hP : P a' ↔ Q ∨ P a) :
    (∃ b ∈ as.set i a', P b) ↔ Q ∨ ∃ b ∈ as, P b := by
  obtain ⟨hi, hget⟩ := List.getElem?_eq_some_iff.mp ha
  have hnew : a' ∈ as.set i a' := List.mem_set hi a'
  constructor
  · rintro ⟨b, hb, hPb⟩
    rcases List.mem_or_eq_of_mem_set hb with hb | rfl
    · exact Or.inr ⟨b, hb, hPb⟩
    · exact (hP.mp hPb).imp_right fun h => ⟨a, List.mem_of_getElem? ha, h⟩
  · rintro (hQ | ⟨b, hb, hPb⟩)
    · exact ⟨a', hnew, hP.mpr (Or.inl hQ)⟩
    · obtain ⟨j, hj, rfl⟩ := List.mem_iff_getElem.mp hb
      by_cases hij : i = j
      · subst hij
        rw [hget] at hPb
        exact ⟨a', hnew, hP.mpr (Or.inr hPb)⟩
      · refine ⟨as[j], ?_, hPb⟩
        rw [← List.getElem_set_ne hij (by simpa using hj)]
        exact List.getElem_mem _

/-- **A longer interval.**  The list stays in order when the interval grows into room that no
later interval takes. -/
theorem InOrder.set (h : InOrder lo hi as) {i : ℕ} {a' : α} (ha : as[i]? = some a)
    (hlo : lo a' = lo a) (hroom : ∀ b ∈ as, hi a ≤ lo b → hi a' ≤ lo b) :
    InOrder lo hi (as.set i a') := by
  obtain ⟨hi', hget⟩ := List.getElem?_eq_some_iff.mp ha
  rw [InOrder, List.pairwise_iff_getElem] at h ⊢
  intro j k hj hk hjk
  rw [List.length_set] at hj hk
  rw [List.getElem_set, List.getElem_set]
  have hjk' := h j k hj hk hjk
  split_ifs with h₁ h₂ h₂
  · omega
  · subst h₁
    rw [hget] at hjk'
    exact hroom _ (List.getElem_mem hk) hjk'
  · subst h₂
    rw [hget] at hjk'
    rw [hlo]
    exact hjk'
  · exact hjk'

/-- **A cut.**  The intervals before the first one that starts from `n` on are those that start
before `n`. -/
theorem InOrder.mem_take_iff (h : InOrder lo hi as) (hne : ∀ b ∈ as, lo b < hi b) {n k : ℕ}
    (hk : k < as.length) (hstart : n ≤ lo as[k]) (hbefore : ∀ b ∈ as.take k, lo b < n) :
    a ∈ as.take k ↔ a ∈ as ∧ lo a < n := by
  constructor
  · exact fun ha => ⟨List.mem_of_mem_take ha, hbefore a ha⟩
  · rintro ⟨ha, hlt⟩
    rw [← List.take_append_drop k as, List.mem_append] at ha
    rcases ha with ha | ha
    · exact ha
    · exfalso
      obtain ⟨j, hj, rfl⟩ := List.mem_iff_getElem.mp ha
      rw [List.getElem_drop] at hlt
      cases j with
      | zero =>
        simp only [Nat.add_zero] at hlt
        omega
      | succ j =>
        rw [List.length_drop] at hj
        have hord := List.pairwise_iff_getElem.mp h k (k + (j + 1)) hk (by omega) (by omega)
        have := hne as[k] (List.getElem_mem hk)
        omega

end QuackOS.Intervals
