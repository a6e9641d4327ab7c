import Mathlib.Data.List.Basic

/-!
# Arrays filled from the front

A fixed array with the index that the next item goes to, as a loop keeps it that builds a line or a
text in a buffer.  An item put behind the array's end is an error.

* `push`, `pop` — one item more, one item less;
* `Shows` — what the array holds so far;
* `Shows.pushAll`, `Shows.pushAll_full` — items in a row go in exactly when there is room for them.
-/

namespace QuackOS

/-- An array, and the index behind the items in it. -/
structure Cursor (α : Type*) where
  buf : List α
  len : ℕ

namespace Cursor

variable {α ε : Type*} {c : Cursor α} {n : ℕ} {xs : List α} {e : ε}

/-- An empty array of `n` places. -/
def blank (n : ℕ) (x : α) : Cursor α := ⟨List.replicate n x, 0⟩

/-- `buf[len] = x; len += 1`. -/
def push (e : ε) (x : α) (c : Cursor α) : Except ε (Cursor α) :=
  if c.len < c.buf.length then .ok ⟨c.buf.set c.len x, c.len + 1⟩ else .error e

/-- `len -= 1`, unless there is nothing. -/
def pop (c : Cursor α) : Cursor α := ⟨c.buf, c.len - 1⟩

/-- `&buf[..len]`. -/
def items (c : Cursor α) : List α := c.buf.take c.len

/-- The array has `n` places and holds `xs`. -/
structure Shows (n : ℕ) (xs : List α) (c : Cursor α) : Prop where
  size : c.buf.length = n
  len : c.len = xs.length
  items : c.items = xs

theorem Shows.le (h : Shows n xs c) : xs.length ≤ n := by
  have hlen := congrArg List.length h.items
  rw [Cursor.items, List.length_take, h.size] at hlen
  omega

theorem shows_blank (n : ℕ) (x : α) : Shows n [] (blank n x) := ⟨List.length_replicate, rfl, rfl⟩

theorem Shows.push (h : Shows n xs c) (hroom : xs.length < n) (e : ε) (x : α) :
    ∃ c', c.push e x = .ok c' ∧ Shows n (xs ++ [x]) c' := by
  have hlt : c.len < c.buf.length := by rw [h.size, h.len]; exact hroom
  refine ⟨_, if_pos hlt, ?_, ?_, ?_⟩
  · rw [List.length_set, h.size]
  · rw [List.length_append, List.length_singleton, h.len]
  · have hitems := h.items
    unfold Cursor.items at hitems ⊢
    dsimp only
    rw [List.take_succ_eq_append_getElem (by rwa [List.length_set]), List.getElem_set_self,
      List.take_set_of_le (Nat.le_refl _), hitems]

theorem Shows.push_full (h : Shows n xs c) (hfull : n ≤ xs.length) (e : ε) (x : α) :
    c.push e x = .error e := by
  rw [Cursor.push, if_neg (by rw [h.size, h.len]; omega)]

theorem Shows.pop (h : Shows n xs c) : Shows n xs.dropLast c.pop := by
  refine ⟨h.size, ?_, ?_⟩
  · rw [Cursor.pop, List.length_dropLast, h.len]
  · have hitems := h.items
    unfold Cursor.items at hitems
    rw [Cursor.items, Cursor.pop]
    dsimp only
    rw [← hitems, List.dropLast_eq_take, List.take_take, List.length_take, h.size]
    have hle := h.le
    rw [h.len]
    congr 1
    omega

/-- Items in a row. -/
theorem Shows.pushAll (h : Shows n xs c) {ys : List α} (hroom : xs.length + ys.length ≤ n) (e : ε) :
    ∃ c', ys.foldlM (fun c y => c.push e y) c = .ok c' ∧ Shows n (xs ++ ys) c' := by
  induction ys generalizing xs c with
  | nil => exact ⟨c, rfl, by rwa [List.append_nil]⟩
  | cons y ys ih =>
    rw [List.length_cons] at hroom
    obtain ⟨c₁, h₁, hs₁⟩ := h.push (by omega) e y
    obtain ⟨c', h', hs'⟩ := ih hs₁ (by rw [List.length_append, List.length_singleton]; omega)
    refine ⟨c', ?_, by rwa [List.append_assoc] at hs'⟩
    rw [List.foldlM_cons, h₁]
    exact h'

theorem Shows.pushAll_full (h : Shows n xs c) {ys : List α} (hfull : n < xs.length + ys.length)
    (e : ε) : ys.foldlM (fun c y => c.push e y) c = .error e := by
  induction ys generalizing xs c with
  | nil =>
    rw [List.length_nil] at hfull
    exact absurd h.le (by omega)
  | cons y ys ih =>
    rw [List.length_cons] at hfull
    by_cases hroom : xs.length < n
    · obtain ⟨c₁, h₁, hs₁⟩ := h.push hroom e y
      rw [List.foldlM_cons, h₁]
      exact ih hs₁ (by rw [List.length_append, List.length_singleton]; omega)
    · rw [List.foldlM_cons, h.push_full (by omega)]
      rfl

end Cursor

end QuackOS
