import Mathlib.Data.BitVec
import Mathlib.Logic.Function.Iterate

/-!
# Cyclic redundancy checks

Reflected checks of any width.  A register takes the message in bit by bit at its low end, and the
polynomial is added whenever a one falls out.

* `shift`, `feed`, `feedAll` — one place, one bit of the message, many bits;
* `feedAll_bits` — bits of a word taken in one by one, or added to the register at once;
* `shift_xor`, `iterate_shift_of_low` — a shift is linear, and zeros that fall out add nothing;
* `iterate_shift_split` — **what the low bits add can be read from a table**, and the others only
  move down.
-/

namespace QuackOS.Crc

variable {w : ℕ} (p : BitVec w)

/-- The register moved by one place. -/
def shift (r : BitVec w) : BitVec w := if r.getLsbD 0 then r >>> 1 ^^^ p else r >>> 1

/-- The register after one bit of the message. -/
def feed (r : BitVec w) (bit : Bool) : BitVec w :=
  if r.getLsbD 0 ^^ bit then r >>> 1 ^^^ p else r >>> 1

/-- The register after many bits. -/
def feedAll (r : BitVec w) (bits : List Bool) : BitVec w := bits.foldl (feed p) r

theorem feedAll_append (r : BitVec w) (bits bits' : List Bool) :
    feedAll p r (bits ++ bits') = feedAll p (feedAll p r bits) bits' := List.foldl_append

variable {p}

/-! ## Words of the message -/

/-- A bit added to the register, with more bits above it. -/
theorem shift_xor_word (r x : BitVec w) :
    shift p (r ^^^ x) = feed p r (x.getLsbD 0) ^^^ x >>> 1 := by
  rw [shift, feed, BitVec.getLsbD_xor, BitVec.ushiftRight_xor_distrib]
  split
  · rw [BitVec.xor_assoc, BitVec.xor_comm (x >>> 1), ← BitVec.xor_assoc]
  · rfl

/-- **A word of the message is added to the register as a whole**, if the bits that are taken from it
are all it has. -/
theorem feedAll_bits {n : ℕ} {r x : BitVec w} (hx : ∀ i, n ≤ i → x.getLsbD i = false) :
    feedAll p r ((List.range n).map x.getLsbD) = (shift p)^[n] (r ^^^ x) := by
  induction n generalizing r x with
  | zero =>
    have hzero : x = 0#w := BitVec.eq_of_getLsbD_eq fun i _ => by
      rw [hx i (Nat.zero_le i), BitVec.getLsbD_zero]
    rw [hzero, BitVec.xor_zero]
    rfl
  | succ n ih =>
    have hrest : ((List.range n).map Nat.succ).map x.getLsbD =
        (List.range n).map (x >>> 1).getLsbD := by
      rw [List.map_map]
      refine List.map_congr_left fun i _ => ?_
      rw [BitVec.getLsbD_ushiftRight, Nat.add_comm]
      rfl
    have hhigh : ∀ i, n ≤ i → (x >>> 1).getLsbD i = false := fun i hi => by
      rw [BitVec.getLsbD_ushiftRight]
      exact hx (1 + i) (by omega)
    calc feedAll p r ((List.range (n + 1)).map x.getLsbD)
        = feedAll p (feed p r (x.getLsbD 0)) ((List.range n).map (x >>> 1).getLsbD) := by
          rw [List.range_succ_eq_map, List.map_cons, hrest]
          rfl
      _ = (shift p)^[n] (feed p r (x.getLsbD 0) ^^^ x >>> 1) := ih hhigh
      _ = (shift p)^[n + 1] (r ^^^ x) := by rw [← shift_xor_word, Function.iterate_succ_apply]

/-! ## Tables -/

theorem shift_xor (a b : BitVec w) : shift p (a ^^^ b) = shift p a ^^^ shift p b := by
  rw [shift_xor_word, feed, shift, shift]
  cases a.getLsbD 0 <;> cases b.getLsbD 0
  · rfl
  · change a >>> 1 ^^^ p ^^^ b >>> 1 = a >>> 1 ^^^ (b >>> 1 ^^^ p)
    rw [BitVec.xor_assoc, BitVec.xor_comm p]
  · rfl
  · change a >>> 1 ^^^ b >>> 1 = a >>> 1 ^^^ p ^^^ (b >>> 1 ^^^ p)
    rw [BitVec.xor_comm (b >>> 1), BitVec.xor_assoc, ← BitVec.xor_assoc p p, BitVec.xor_self,
      BitVec.zero_xor]

theorem iterate_shift_xor (n : ℕ) (a b : BitVec w) :
    (shift p)^[n] (a ^^^ b) = (shift p)^[n] a ^^^ (shift p)^[n] b := by
  induction n generalizing a b with
  | zero => rfl
  | succ n ih => rw [Function.iterate_succ_apply, shift_xor, ih]; rfl

/-- Zeros that fall out add nothing. -/
theorem iterate_shift_of_low {n : ℕ} {r : BitVec w} (h : ∀ i < n, r.getLsbD i = false) :
    (shift p)^[n] r = r >>> n := by
  induction n generalizing r with
  | zero => exact (BitVec.ushiftRight_zero r).symm
  | succ n ih =>
    have hone : shift p r = r >>> 1 := by
      rw [shift, h 0 (Nat.succ_pos n)]
      rfl
    have hlow : ∀ i < n, (r >>> 1).getLsbD i = false := fun i hi => by
      rw [BitVec.getLsbD_ushiftRight]
      exact h (1 + i) (by omega)
    rw [Function.iterate_succ_apply, hone, ih hlow, ← BitVec.shiftRight_add, Nat.add_comm]

/-- **The table rule.**  Many places at once: what the low bits of the register add depends on them
alone, and the others only move down. -/
theorem iterate_shift_split {n : ℕ} {mask : BitVec w}
    (hmask : ∀ i < w, mask.getLsbD i = decide (i < n)) (r : BitVec w) :
    (shift p)^[n] r = (shift p)^[n] (r &&& mask) ^^^ r >>> n := by
  have hparts : r = (r &&& mask) ^^^ (r &&& ~~~mask) := BitVec.eq_of_getLsbD_eq fun i hi => by
    rw [BitVec.getLsbD_xor, BitVec.getLsbD_and, BitVec.getLsbD_and, BitVec.getLsbD_not]
    cases r.getLsbD i <;> cases mask.getLsbD i <;> simp [hi]
  have hlow : ∀ i < n, (r &&& ~~~mask).getLsbD i = false := fun i hi => by
    rw [BitVec.getLsbD_and, BitVec.getLsbD_not]
    by_cases hw : i < w
    · simp [hmask i hw, hi]
    · simp [hw]
  have hhigh : (r &&& ~~~mask) >>> n = r >>> n := BitVec.eq_of_getLsbD_eq fun i _ => by
    rw [BitVec.getLsbD_ushiftRight, BitVec.getLsbD_ushiftRight, BitVec.getLsbD_and,
      BitVec.getLsbD_not]
    by_cases hw : n + i < w
    · have hout : mask.getLsbD (n + i) = false := by
        rw [hmask _ hw, decide_eq_false (by omega)]
      rw [hout, decide_eq_true hw, Bool.not_false, Bool.and_true, Bool.and_true]
    · simp [hw, BitVec.getLsbD_of_ge r (n + i) (Nat.le_of_not_lt hw)]
  calc (shift p)^[n] r = (shift p)^[n] ((r &&& mask) ^^^ (r &&& ~~~mask)) := by rw [← hparts]
    _ = (shift p)^[n] (r &&& mask) ^^^ (shift p)^[n] (r &&& ~~~mask) := iterate_shift_xor n _ _
    _ = (shift p)^[n] (r &&& mask) ^^^ r >>> n := by rw [iterate_shift_of_low hlow, hhigh]

end QuackOS.Crc
