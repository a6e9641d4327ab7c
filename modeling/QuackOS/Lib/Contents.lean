import Mathlib.Data.List.Basic

/-!
# Byte contents

The contents of a file are a finite sequence that can be read in parts, written over in the
middle, and made longer, with a filler for what was never written.

* `resize`, `write`, `read` — the three operations;
* `tabulate` — the first `n` values of a function;
* `resize_tabulate`, `write_tabulate`, `read_tabulate` — what the operations are for a store that
  knows single positions only and has the filler behind the end.
-/

namespace QuackOS.Contents

variable {α : Type*} (z : α)

/-- The first `n` items, or all of them and the filler up to `n`. -/
def resize (n : ℕ) (l : List α) : List α := l.take n ++ List.replicate (n - l.length) z

/-- Put `buf` at `off`, over what is there, after the filler where there is nothing. -/
def write (off : ℕ) (buf l : List α) : List α :=
  resize z off l ++ buf ++ l.drop (off + buf.length)

/-- The `n` items from `off` on, as far as there are any. -/
def read (off n : ℕ) (l : List α) : List α := (l.drop off).take n

/-- The first `n` values of a function. -/
def tabulate (f : ℕ → α) (n : ℕ) : List α := (List.range n).map f

@[simp] theorem length_tabulate (f : ℕ → α) (n : ℕ) : (tabulate f n).length = n := by
  simp [tabulate]

@[simp] theorem getElem_tabulate (f : ℕ → α) (n k : ℕ) (hk : k < (tabulate f n).length) :
    (tabulate f n)[k] = f k := by
  simp [tabulate]

@[simp] theorem length_resize (n : ℕ) (l : List α) : (resize z n l).length = n := by
  simp only [resize, List.length_append, List.length_take, List.length_replicate]
  omega

theorem length_write (off : ℕ) (buf l : List α) :
    (write z off buf l).length = max l.length (off + buf.length) := by
  simp only [write, List.length_append, length_resize, List.length_drop]
  omega

theorem getElem_resize (n : ℕ) (l : List α) {k : ℕ} (hk : k < (resize z n l).length) :
    (resize z n l)[k] = l.getD k z := by
  rw [List.getD_eq_getElem?_getD]
  unfold resize at hk ⊢
  rw [List.getElem_append]
  split
  · rename_i hlt
    rw [List.length_take] at hlt
    rw [List.getElem_take, List.getElem?_eq_getElem (by omega), Option.getD_some]
  · rename_i hge
    rw [List.length_take] at hge
    simp only [List.length_append, List.length_take, List.length_replicate] at hk
    rw [List.getElem_replicate, List.getElem?_eq_none (by omega), Option.getD_none]

theorem getD_tabulate {f : ℕ → α} {n k : ℕ} (hz : n ≤ k → f k = z) :
    (tabulate f n).getD k z = f k := by
  rw [List.getD_eq_getElem?_getD]
  by_cases hk : k < n
  · rw [List.getElem?_eq_getElem (by simpa using hk), Option.getD_some, getElem_tabulate]
  · rw [List.getElem?_eq_none (by simpa using hk), Option.getD_none, hz (by omega)]

variable {z} {f g : ℕ → α} {n m off : ℕ} {buf : List α}

/-- A store whose end was moved. -/
theorem resize_tabulate (hz : ∀ k < m, n ≤ k → f k = z) (hg : ∀ k < m, g k = f k) :
    tabulate g m = resize z m (tabulate f n) := by
  refine List.ext_getElem (by simp) fun k hk hk' => ?_
  rw [length_tabulate] at hk
  rw [getElem_tabulate, getElem_resize, getD_tabulate z (hz k hk), hg k hk]

/-- A store into which `buf` was put: the range has its bytes, and the rest is what it was. -/
theorem write_tabulate (hz : ∀ k < off, n ≤ k → f k = z)
    (hin : ∀ k (hk : k < buf.length), g (off + k) = buf[k])
    (hout : ∀ k < max n (off + buf.length), k < off ∨ off + buf.length ≤ k → g k = f k) :
    tabulate g (max n (off + buf.length)) = write z off buf (tabulate f n) := by
  refine List.ext_getElem (by rw [length_write, length_tabulate, length_tabulate])
    fun k hk hk' => ?_
  rw [length_tabulate] at hk
  rw [getElem_tabulate]
  unfold write at hk' ⊢
  rcases Nat.lt_or_ge k off with hlt | hge
  · -- in front of the range
    rw [List.getElem_append_left (by simp; omega), List.getElem_append_left (by simpa using hlt),
      getElem_resize, getD_tabulate z (hz k hlt), hout k hk (Or.inl hlt)]
  · obtain ⟨i, rfl⟩ := Nat.exists_eq_add_of_le hge
    rcases Nat.lt_or_ge i buf.length with hi | hi
    · rw [List.getElem_append_left (by simpa using hi), List.getElem_append_right (by simp), hin i hi]
      simp
    · -- behind it
      rw [List.getElem_append_right (by simpa using hi), List.getElem_drop, getElem_tabulate,
        hout _ hk (Or.inr (by omega))]
      congr 1
      simp only [List.length_append, length_resize]
      omega

/-- A part of a store. -/
theorem read_tabulate : read off m (tabulate f n) = (List.range' off (min m (n - off))).map f := by
  refine List.ext_getElem (by simp [read]) fun k hk hk' => ?_
  simp [read]

end QuackOS.Contents
