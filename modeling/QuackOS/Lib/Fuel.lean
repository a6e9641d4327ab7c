import Mathlib.Data.Nat.Basic

/-!
# Loops on fuel

A loop whose body may panic is a function from fuel to an `Option`.  Whether it ends, and whether
it panics, is a matter of the outcome it has once there is fuel enough.

* `Comes` — from some fuel on, the loop comes to a result;
* `Settles` — from some fuel on it has one outcome, which is a result just under a condition;
* `Settles.step` — a round of the loop.
-/

namespace QuackOS.Fuel

variable {α : Type*} {f g : ℕ → Option α} {n k : ℕ} {C C' : Prop} {r : α}

/-- From `n` on, more fuel does not change the result. -/
def Comes (f : ℕ → Option α) (n : ℕ) : Prop := ∃ r, ∀ fuel, n ≤ fuel → f fuel = some r

/-- From `n` on the outcome is the same, and no panic just when `C` holds. -/
def Settles (f : ℕ → Option α) (n : ℕ) (C : Prop) : Prop :=
  ∃ v, (∀ fuel, n ≤ fuel → f fuel = v) ∧ (v ≠ none ↔ C)

theorem Settles.result (hC : C) (h : ∀ fuel, n ≤ fuel → f fuel = some r) : Settles f n C :=
  ⟨some r, h, iff_of_true (Option.some_ne_none r) hC⟩

theorem Settles.panic (hC : ¬ C) (h : ∀ fuel, n ≤ fuel → f fuel = none) : Settles f n C :=
  ⟨none, h, iff_of_false (fun hne => hne rfl) hC⟩

/-- A round that leaves the rest to the next ones. -/
theorem Settles.step (h : Settles g k C) (hk : k < n) (hround : ∀ fuel, f (fuel + 1) = g fuel) :
    Settles f n C := by
  obtain ⟨v, hv, hC⟩ := h
  refine ⟨v, fun fuel hfuel => ?_, hC⟩
  obtain ⟨m, rfl⟩ : ∃ m, fuel = m + 1 := ⟨fuel - 1, by omega⟩
  rw [hround, hv m (by omega)]

theorem Settles.congr (h : Settles f n C) (hC : C ↔ C') : Settles f n C' := by
  obtain ⟨v, hv, hiff⟩ := h
  exact ⟨v, hv, hiff.trans hC⟩

theorem Settles.comes_iff (h : Settles f n C) : Comes f n ↔ C := by
  obtain ⟨v, hv, hC⟩ := h
  rw [← hC]
  constructor
  · rintro ⟨r, hr⟩
    rw [← hv n le_rfl, hr n le_rfl]
    exact Option.some_ne_none r
  · intro hne
    obtain ⟨r, rfl⟩ := Option.ne_none_iff_exists'.mp hne
    exact ⟨r, hv⟩

end QuackOS.Fuel
