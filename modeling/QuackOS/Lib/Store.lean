import QuackOS.Lib.Slice

/-!
# Byte memory

Memory as a function from addresses to bytes, and what stands in it where:

* `write`, `Holds` — bytes put one behind the other, and found again (`holds_write`);
* `Apart` — ranges without a common address; what a range holds survives a write apart from it
  (`Holds.write`);
* `wordAt` — little-endian words, alone and in a row (`wordAt_of_holds`).
-/

namespace QuackOS.Store

variable {m : ℕ → UInt8} {a b : ℕ} {bs cs : List UInt8}

/-- Put the bytes at `a`. -/
def write (m : ℕ → UInt8) (a : ℕ) (bs : List UInt8) : ℕ → UInt8 :=
  fun x => if a ≤ x ∧ x < a + bs.length then bs.getD (x - a) 0 else m x

/-- The bytes stand at `a`. -/
def Holds (m : ℕ → UInt8) (a : ℕ) (bs : List UInt8) : Prop :=
  ∀ i, i < bs.length → m (a + i) = bs.getD i 0

/-- Two ranges, of a start and a length each, have no address in common. -/
def Apart (p q : ℕ × ℕ) : Prop := p.1 + p.2 ≤ q.1 ∨ q.1 + q.2 ≤ p.1

instance (p q : ℕ × ℕ) : Decidable (Apart p q) := inferInstanceAs (Decidable (_ ∨ _))

theorem holds_write (m : ℕ → UInt8) (a : ℕ) (bs : List UInt8) : Holds (write m a bs) a bs := by
  intro i hi
  rw [write, if_pos ⟨Nat.le_add_right a i, Nat.add_lt_add_left hi a⟩, Nat.add_sub_cancel_left]

/-- What a range holds survives a write apart from it. -/
theorem Holds.write (h : Holds m a bs) (hapart : Apart (a, bs.length) (b, cs.length)) :
    Holds (write m b cs) a bs := by
  intro i hi
  have hout : ¬ (b ≤ a + i ∧ a + i < b + cs.length) := by
    rcases hapart with hbefore | hbehind
    · dsimp only at hbefore
      omega
    · dsimp only at hbehind
      omega
  rw [Store.write, if_neg hout]
  exact h i hi

theorem holds_append : Holds m a (bs ++ cs) ↔ Holds m a bs ∧ Holds m (a + bs.length) cs := by
  constructor
  · intro h
    refine ⟨fun i hi => ?_, fun i hi => ?_⟩
    · rw [h i (by rw [List.length_append]; omega), List.getD_append _ _ _ _ hi]
    · rw [Nat.add_assoc, h _ (by rw [List.length_append]; omega),
        List.getD_append_right _ _ _ _ (Nat.le_add_right _ _), Nat.add_sub_cancel_left]
  · rintro ⟨hfirst, hrest⟩ i hi
    by_cases hlt : i < bs.length
    · rw [List.getD_append _ _ _ _ hlt]
      exact hfirst i hlt
    · rw [List.length_append] at hi
      rw [List.getD_append_right _ _ _ _ (Nat.le_of_not_lt hlt), ← hrest _ (by omega)]
      congr 1
      omega

/-! ## Words -/

/-- The 64-bit word at an address. -/
def wordAt (m : ℕ → UInt8) (a : ℕ) : BitVec 64 := Bytes.ofBytes (fun i => (m (a + i)).toBitVec) 8

/-- The bytes of words in a row. -/
def wordBytes (ws : List (BitVec 64)) : List UInt8 := ws.flatMap (Slice.leBytes 8)

theorem length_wordBytes (ws : List (BitVec 64)) : (wordBytes ws).length = 8 * ws.length := by
  induction ws with
  | nil => rfl
  | cons w ws ih =>
    have hcons : wordBytes (w :: ws) = Slice.leBytes 8 w ++ wordBytes ws := rfl
    rw [hcons, List.length_append, Slice.length_leBytes, ih, List.length_cons]
    omega

theorem wordAt_of_holds_leBytes {w : BitVec 64} (h : Holds m a (Slice.leBytes 8 w)) :
    wordAt m a = w := by
  refine (Bytes.ofBytes_congr fun i hi => ?_).trans (Bytes.ofBytes_byte w)
  rw [h i (by rwa [Slice.length_leBytes]), List.getD_eq_getElem _ _ (by rwa [Slice.length_leBytes])]
  simp [Slice.leBytes]

/-- The `i`-th of the words that stand in a row. -/
theorem wordAt_of_holds {ws : List (BitVec 64)} (h : Holds m a (wordBytes ws)) {i : ℕ}
    (hi : i < ws.length) : wordAt m (a + 8 * i) = ws.getD i 0 := by
  induction ws generalizing a i with
  | nil => cases hi
  | cons w ws ih =>
    have hcons : wordBytes (w :: ws) = Slice.leBytes 8 w ++ wordBytes ws := rfl
    rw [hcons] at h
    obtain ⟨hfirst, hrest⟩ := holds_append.mp h
    cases i with
    | zero => exact wordAt_of_holds_leBytes hfirst
    | succ i =>
      rw [Slice.length_leBytes] at hrest
      have hword := ih hrest (Nat.lt_of_succ_lt_succ hi)
      rwa [show a + 8 * (i + 1) = a + 8 + 8 * i by omega]

/-- A word survives a write apart from it. -/
theorem wordAt_write (hapart : Apart (a, 8) (b, bs.length)) :
    wordAt (write m b bs) a = wordAt m a := by
  refine Bytes.ofBytes_congr fun i hi => ?_
  have hout : ¬ (b ≤ a + i ∧ a + i < b + bs.length) := by
    rcases hapart with hbefore | hbehind
    · dsimp only at hbefore
      omega
    · dsimp only at hbehind
      omega
  rw [write, if_neg hout]

end QuackOS.Store
