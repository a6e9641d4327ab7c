import Mathlib.Data.BitVec

/-!
# Little-endian words

Sixty-four-bit words as sequences of bytes, lowest byte first: `ofBytes` assembles the first
`n` bytes of a sequence, `byte` takes one out again, and byte-addressed memory is read and
written a word at a time.
-/

namespace QuackOS.Bytes

/-- Assemble a word from the first `n` bytes of a sequence. -/
def ofBytes (b : ℕ → BitVec 8) : ℕ → BitVec 64
  | 0 => 0
  | n + 1 => ofBytes b n ||| ((b n).setWidth 64 <<< (8 * n))

/-- Byte `i` of a word. -/
def byte (w : BitVec 64) (i : ℕ) : BitVec 8 := w.extractLsb' (8 * i) 8

theorem getLsbD_ofBytes (b : ℕ → BitVec 8) (n k : ℕ) (hk : k < 64) :
    (ofBytes b n).getLsbD k = (decide (k / 8 < n) && (b (k / 8)).getLsbD (k % 8)) := by
  induction n with
  | zero => simp [ofBytes]
  | succ n ih =>
    rw [ofBytes, BitVec.getLsbD_or, ih, BitVec.getLsbD_shiftLeft, BitVec.getLsbD_setWidth]
    rcases lt_trichotomy (k / 8) n with hlt | heq | hgt
    · have h1 : k < 8 * n := by omega
      have h2 : k / 8 < n + 1 := by omega
      simp [hlt, h1, h2]
    · have h1 : ¬ k < 8 * n := by omega
      have h2 : k - 8 * n = k % 8 := by omega
      have h3 : k % 8 < 64 := by omega
      simp [heq, hk, h1, h2, h3]
    · have h1 : ¬ k / 8 < n := by omega
      have h2 : ¬ k / 8 < n + 1 := by omega
      have h3 : 8 ≤ k - 8 * n := by omega
      have h4 : (b n).getLsbD (k - 8 * n) = false := BitVec.getLsbD_of_ge _ _ h3
      simp [h1, h2, h4]

/-- Taking bytes out of an assembled word. -/
theorem byte_ofBytes (b : ℕ → BitVec 8) {n i : ℕ} (hi : i < 8) :
    byte (ofBytes b n) i = if i < n then b i else 0 := by
  refine BitVec.eq_of_getLsbD_eq fun k hk => ?_
  rw [byte, BitVec.getLsbD_extractLsb', getLsbD_ofBytes _ _ _ (by omega)]
  have h1 : (8 * i + k) / 8 = i := by omega
  have h2 : (8 * i + k) % 8 = k := by omega
  rw [h1, h2]
  split <;> simp_all

/-- A word is assembled from its own bytes. -/
theorem ofBytes_byte (w : BitVec 64) : ofBytes (byte w) 8 = w := by
  refine BitVec.eq_of_getLsbD_eq fun k hk => ?_
  rw [getLsbD_ofBytes _ _ _ hk, byte, BitVec.getLsbD_extractLsb']
  have h1 : k / 8 < 8 := by omega
  have h2 : k % 8 < 8 := by omega
  have h3 : 8 * (k / 8) + k % 8 = k := by omega
  simp [h1, h2, h3]

theorem ofBytes_congr {b c : ℕ → BitVec 8} {n : ℕ} (h : ∀ i < n, b i = c i) :
    ofBytes b n = ofBytes c n := by
  induction n with
  | zero => rfl
  | succ n ih => rw [ofBytes, ofBytes, ih fun i hi => h i (by omega), h n (by omega)]

/-- Byte-addressed memory with 64-bit addresses. -/
abbrev Mem := BitVec 64 → BitVec 8

/-- Read the word at an address. -/
def readU64 (m : Mem) (a : BitVec 64) : BitVec 64 := ofBytes (fun i => m (a + BitVec.ofNat 64 i)) 8

/-- Write the lowest `n` bytes of a word at an address. -/
def writeBytes (n : ℕ) (m : Mem) (a : BitVec 64) (w : BitVec 64) : Mem :=
  fun x => if (x - a).toNat < n then byte w (x - a).toNat else m x

/-- Write a word at an address. -/
def writeU64 (m : Mem) (a : BitVec 64) (w : BitVec 64) : Mem := writeBytes 8 m a w

/-- A word read back is the word written. -/
theorem readU64_writeU64 (m : Mem) (a w : BitVec 64) : readU64 (writeU64 m a w) a = w := by
  refine Eq.trans ?_ (ofBytes_byte w)
  refine ofBytes_congr fun i hi => ?_
  have hoff : (a + BitVec.ofNat 64 i - a).toNat = i := by
    rw [BitVec.add_comm, BitVec.add_sub_cancel, BitVec.toNat_ofNat]
    omega
  simp only [writeU64, writeBytes, hoff, hi, if_true]

theorem readU64_congr {m m' : Mem} {a : BitVec 64}
    (h : ∀ i < 8, m' (a + BitVec.ofNat 64 i) = m (a + BitVec.ofNat 64 i)) :
    readU64 m' a = readU64 m a := ofBytes_congr h

/-- A write elsewhere does not touch a word. -/
theorem readU64_writeU64_of_ne (m : Mem) (a b w : BitVec 64)
    (h : ∀ i < 8, 8 ≤ (b + BitVec.ofNat 64 i - a).toNat) :
    readU64 (writeU64 m a w) b = readU64 m b := by
  refine readU64_congr fun i hi => ?_
  rw [writeU64, writeBytes, if_neg (by have := h i hi; omega)]

/-- The bytes of a range, as `copy_nonoverlapping` reads them. -/
def copyIn (m : Mem) (a : BitVec 64) (len : ℕ) : List (BitVec 8) :=
  (List.range len).map fun i => m (a + BitVec.ofNat 64 i)

end QuackOS.Bytes
