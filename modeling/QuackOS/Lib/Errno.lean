import Mathlib.Algebra.Ring.Int.Defs

/-!
# Error numbers

The numbers the calls fail with, and the word a caller finds in its register: a call that fails
returns the number negated, as a signed word.
-/

namespace QuackOS

def ebadf : ℤ := 9
def eagain : ℤ := 11
def enomem : ℤ := 12
def eacces : ℤ := 13
def eexist : ℤ := 17
def einval : ℤ := 22
def erange : ℤ := 34
def enosys : ℤ := 38
def etimedout : ℤ := 110

/-- `(-e) as usize`. -/
def errnoWord (e : ℤ) : BitVec 64 := BitVec.ofInt 64 (-e)

theorem errnoWord_neg {e : ℤ} (hpos : 0 < e) (hle : e ≤ 2 ^ 63) : (errnoWord e).toInt < 0 := by
  rw [errnoWord, BitVec.toInt_ofInt, Int.bmod_eq_of_le (by omega) (by omega)]
  omega

end QuackOS
