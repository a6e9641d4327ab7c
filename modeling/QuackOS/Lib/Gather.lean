import Mathlib.Algebra.GroupWithZero.Nat
import Mathlib.Data.List.Basic

/-!
# Gathering pieces

A vectored transfer goes over a list of pieces and takes some number of items off the front of
each.  Here a piece is a list with the number of items taken of it.

* `positions` — where the items taken stand in the pieces laid end to end;
* `Gapless` — nothing is taken behind a piece that was cut short;
* `positions_eq_range_iff` — then, and only then, the items taken are the first ones in
  order;
* `untilError` — what is taken before the first piece that fails.
-/

namespace QuackOS.Gather

variable {α ε : Type*}

/-- How many items are taken in all. -/
def taken (ps : List (List α × ℕ)) : ℕ := (ps.map Prod.snd).sum

/-- The items taken, in order. -/
def items (ps : List (List α × ℕ)) : List α := ps.flatMap fun p => p.1.take p.2

/-- The pieces laid end to end. -/
def whole (ps : List (List α × ℕ)) : List α := ps.flatMap Prod.fst

/-- Where the items taken stand in the pieces laid end to end, the first at `off`. -/
def positions : ℕ → List (List α × ℕ) → List ℕ
  | _, [] => []
  | off, p :: ps => List.range' off p.2 ++ positions (off + p.1.length) ps

/-- No more is taken of a piece than it has. -/
def Within (ps : List (List α × ℕ)) : Prop := ∀ p ∈ ps, p.2 ≤ p.1.length

/-- Behind a piece that is not taken whole, nothing is taken. -/
def Gapless (ps : List (List α × ℕ)) : Prop :=
  ps.Pairwise fun p q => p.2 = p.1.length ∨ q.2 = 0

variable {ps : List (List α × ℕ)} {p : List α × ℕ} {off : ℕ}

@[simp] theorem taken_nil : taken ([] : List (List α × ℕ)) = 0 := rfl

@[simp] theorem taken_cons : taken (p :: ps) = p.2 + taken ps := by simp [taken]

theorem taken_eq_zero_iff : taken ps = 0 ↔ ∀ p ∈ ps, p.2 = 0 := by
  induction ps with
  | nil => simp
  | cons p ps ih => rw [taken_cons, Nat.add_eq_zero_iff, ih, List.forall_mem_cons]

theorem length_positions : (positions off ps).length = taken ps := by
  induction ps generalizing off with
  | nil => rfl
  | cons p ps ih => rw [positions, List.length_append, List.length_range', ih, taken_cons]

theorem length_items (h : Within ps) : (items ps).length = taken ps := by
  induction ps with
  | nil => rfl
  | cons p ps ih =>
    have hp := h p (List.mem_cons_self ..)
    have hrest := ih fun q hq => h q (List.mem_cons_of_mem _ hq)
    rw [items] at hrest ⊢
    rw [List.flatMap_cons, List.length_append, hrest, List.length_take, taken_cons]
    omega

/-- Nothing taken, nowhere. -/
theorem positions_of_taken (h : taken ps = 0) : positions off ps = [] :=
  List.length_eq_zero_iff.mp (length_positions.trans h)

/-- The items taken stand behind the offset. -/
theorem le_of_mem_positions {x : ℕ} (h : x ∈ positions off ps) : off ≤ x := by
  induction ps generalizing off with
  | nil => cases h
  | cons p ps ih =>
    rcases List.mem_append.mp h with h | h
    · exact (List.mem_range'_1.mp h).1
    · have := ih h
      omega

theorem gapless_cons :
    Gapless (p :: ps) ↔ (p.2 = p.1.length ∨ taken ps = 0) ∧ Gapless ps := by
  rw [Gapless, List.pairwise_cons, taken_eq_zero_iff]
  refine and_congr_left fun _ => ⟨fun h => ?_, fun h q hq => ?_⟩
  · by_cases hp : p.2 = p.1.length
    · exact .inl hp
    · exact .inr fun q hq => (h q hq).resolve_left hp
  · rcases h with h | h
    · exact .inl h
    · exact .inr (h q hq)

/-- **The first items in order.**  What is taken are the first items of the pieces laid end to
end just when nothing is taken behind a piece that was cut short. -/
theorem positions_eq_range_iff (h : Within ps) :
    positions off ps = List.range' off (taken ps) ↔ Gapless ps := by
  induction ps generalizing off with
  | nil => simp [positions, Gapless]
  | cons p ps ih =>
    have hp := h p (List.mem_cons_self ..)
    have hrest : Within ps := fun q hq => h q (List.mem_cons_of_mem _ hq)
    rw [gapless_cons, positions, taken_cons, ← List.range'_append_1, List.append_cancel_left_eq]
    by_cases hzero : taken ps = 0
    · simp only [positions_of_taken hzero, hzero, List.range'_zero, true_iff, or_true, true_and]
      exact List.pairwise_iff_forall_sublist.mpr fun {q r} hqr =>
        .inr (taken_eq_zero_iff.mp hzero r (hqr.subset (by simp)))
    · by_cases hwhole : p.2 = p.1.length
      · rw [hwhole, ih hrest]
        simp
      · -- the first item behind the cut would have to stand at the cut
        refine iff_of_false (fun heq => ?_) fun hand => ?_
        · have hmem : off + p.2 ∈ positions (off + p.1.length) ps := by
            rw [heq, List.mem_range'_1]
            omega
          have := le_of_mem_positions hmem
          omega
        · rcases hand.1 with h1 | h1
          · exact hwhole h1
          · exact hzero h1

/-- Then the items are a prefix of the whole. -/
theorem items_eq_take (hw : Within ps) (h : Gapless ps) :
    items ps = (whole ps).take (taken ps) := by
  induction ps with
  | nil => rfl
  | cons p ps ih =>
    have hp := hw p (List.mem_cons_self ..)
    have hrest := ih (fun q hq => hw q (List.mem_cons_of_mem _ hq)) (gapless_cons.mp h).2
    rw [items, List.flatMap_cons, whole, List.flatMap_cons, taken_cons]
    rw [items, whole] at hrest
    rw [hrest, List.take_append]
    rcases (gapless_cons.mp h).1 with hwhole | hzero
    · rw [hwhole, List.take_of_length_le (Nat.le_refl _),
        List.take_of_length_le (Nat.le_add_right _ _), Nat.add_sub_cancel_left]
    · rw [hzero, Nat.add_zero, List.take_zero, Nat.sub_eq_zero_of_le hp, List.take_zero]

/-- The pieces before the first one that fails, and how it fails. -/
def untilError : List (List α × Except ε ℕ) → List (List α × ℕ) × Option ε
  | [] => ([], none)
  | (_, .error e) :: _ => ([], some e)
  | (piece, .ok n) :: rest => ((piece, n) :: (untilError rest).1, (untilError rest).2)

/-- Pieces that all go through. -/
theorem untilError_map_ok {β : Type*} (f : β → List α) (g : β → ℕ) (bs : List β) :
    untilError (bs.map fun b => (f b, (.ok (g b) : Except ε ℕ))) =
      (bs.map fun b => (f b, g b), none) := by
  induction bs with
  | nil => rfl
  | cons b bs ih => rw [List.map_cons, untilError, ih, List.map_cons]

end QuackOS.Gather
