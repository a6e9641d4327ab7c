import QuackOS.Lib.Buffer

/-!
# Allocation bitmaps

`Ext4Bitmap` of `block_op.rs`: one block of a group's block or inode bitmap, read into a
buffer of `EXT4_BLOCK_SIZE` bytes.

* `alloc` — take the first clear bit;
* `allocContiguous` — take a run of clear bits, of the length asked for when there is one
  and the longest there is otherwise;
* `deallocContiguous` — clear a run.

What allocation hands out was clear before, and freeing clears nothing outside the run it
is given: `alloc_eq_some`, `allocContiguous_eq_some`, `testBit_deallocContiguous`.
-/

namespace QuackOS.Ext4

/-- `EXT4_BLOCK_SIZE`, the length of every metadata buffer. -/
def ext4BlockSize : ℕ := 4096

namespace Ext4Bitmap

open Buffer

/-! ## One bit -/

/-- The first clear bit, found byte by byte. -/
def firstClear (bitmap : Buffer) : Option (ℕ × ℕ) :=
  (List.range ext4BlockSize).findSome? fun i =>
    if bitmap i ≠ 0xff#8 then
      ((List.range 8).find? fun j => bitmap i &&& 1#8 <<< j = 0#8).map fun j => (i, j)
    else none

/-- `Ext4Bitmap::alloc`: take the first clear bit.  The bit is set in the buffer even when
its byte lies past the bitmap and the call fails. -/
def alloc (bitmap : Buffer) (inodeBitmapSize : ℕ) : Option ℕ × Buffer :=
  match firstClear bitmap with
  | some (i, j) =>
    (if i ≤ inodeBitmapSize then some (i * 8 + j) else none,
      Function.update bitmap i (bitmap i ||| 1#8 <<< j))
  | none => (none, bitmap)

theorem firstClear_eq_some {bitmap : Buffer} {i j : ℕ} (h : firstClear bitmap = some (i, j)) :
    i < ext4BlockSize ∧ j < 8 ∧ testBit bitmap (i * 8 + j) = false := by
  obtain ⟨k, hk, hfound⟩ := List.exists_of_findSome?_eq_some h
  split at hfound
  · obtain ⟨j', hj', heq⟩ := Option.map_eq_some_iff.mp hfound
    obtain ⟨rfl, rfl⟩ := Prod.mk.inj heq
    have hlt : j' < 8 := List.mem_range.mp (List.mem_of_find?_eq_some hj')
    have hclear : bitmap k &&& 1#8 <<< j' = 0#8 := by simpa using List.find?_some hj'
    refine ⟨List.mem_range.mp hk, hlt, ?_⟩
    rw [testBit, show (k * 8 + j') / 8 = k by omega, show (k * 8 + j') % 8 = j' by omega]
    exact (and_one_shiftLeft_eq_zero_iff _ hlt).mp hclear
  · cases hfound

/-- What `alloc` hands out is a clear bit of the buffer, which it sets. -/
theorem alloc_eq_some {bitmap bitmap' : Buffer} {size n : ℕ}
    (h : alloc bitmap size = (some n, bitmap')) :
    n < ext4BlockSize * 8 ∧ testBit bitmap n = false ∧ bitmap' = setBit bitmap n := by
  unfold alloc at h
  split at h
  · rename_i i j hfirst
    obtain ⟨hi, hj, hclear⟩ := firstClear_eq_some hfirst
    obtain ⟨hn, rfl⟩ := Prod.mk.inj h
    split at hn
    · cases hn
      refine ⟨by omega, hclear, ?_⟩
      rw [setBit, show (i * 8 + j) / 8 = i by omega, show (i * 8 + j) % 8 = j by omega]
    · cases hn
  · cases h

/-- A byte with a clear bit is not skipped. -/
theorem find_clear {bitmap : Buffer} {m : ℕ} (hclear : testBit bitmap m = false) :
    bitmap (m / 8) ≠ 0xff#8 ∧ bitmap (m / 8) &&& 1#8 <<< (m % 8) = 0#8 := by
  have hm : m % 8 < 8 := Nat.mod_lt _ (by omega)
  have hzero := (and_one_shiftLeft_eq_zero_iff (bitmap (m / 8)) hm).mpr hclear
  refine ⟨fun hff => ?_, hzero⟩
  rw [testBit, hff] at hclear
  have hall : ∀ k < 8, (0xff#8).getLsbD k = true := by decide
  rw [hall _ hm] at hclear
  cases hclear

/-- `alloc` takes the first clear bit. -/
theorem alloc_le {bitmap bitmap' : Buffer} {size n m : ℕ}
    (h : alloc bitmap size = (some n, bitmap')) (hm : m < ext4BlockSize * 8)
    (hclear : testBit bitmap m = false) : n ≤ m := by
  obtain ⟨hff, hmask⟩ := find_clear hclear
  unfold alloc at h
  split at h
  · rename_i i j hfirst
    have hn : n = i * 8 + j := by
      obtain ⟨hn, -⟩ := Prod.mk.inj h
      split at hn
      · exact (Option.some.inj hn).symm
      · cases hn
    obtain ⟨before, i', after, hrange, hfound, hnone⟩ := List.findSome?_eq_some_iff.mp hfirst
    have hpair : (before ++ i' :: after).Pairwise (· < ·) := hrange ▸ List.pairwise_lt_range
    have hafter : ∀ k ∈ after, i' < k :=
      fun k hk => (List.pairwise_cons.mp (List.pairwise_append.mp hpair).2.1).1 k hk
    have hmem : m / 8 ∈ before ++ i' :: after := by
      rw [← hrange, List.mem_range]
      omega
    by_cases hi' : bitmap i' ≠ 0xff#8
    · rw [if_pos hi'] at hfound
      obtain ⟨j', hj', heq⟩ := Option.map_eq_some_iff.mp hfound
      obtain ⟨rfl, rfl⟩ := Prod.mk.inj heq
      obtain ⟨-, hj8, hless⟩ := List.find?_range_eq_some.mp hj'
      rw [List.mem_range] at hj8
      rcases List.mem_append.mp hmem with hb | hb
      · -- an earlier byte would have been taken
        have := hnone _ hb
        rw [if_pos hff, Option.map_eq_none_iff, List.find?_eq_none] at this
        exact absurd (decide_eq_true hmask) (this (m % 8) (List.mem_range.mpr (by omega)))
      · rcases List.mem_cons.mp hb with hb | hb
        · by_contra hlt
          have hlt' : m % 8 < j' := by omega
          have := hless _ hlt'
          rw [← hb] at this
          simp [hmask] at this
        · have := hafter _ hb
          omega
    · rw [if_neg hi'] at hfound
      cases hfound
  · cases h

/-! ## Runs -/

/-- The local variables of the scan in `alloc_contiguous`. -/
structure Scan where
  currentRun : ℕ
  startBit : ℕ
  longestRun : ℕ
  longestStart : ℕ

namespace Scan

/-- The scan passes the clear bit `bit`. -/
def clear (r : Scan) (bit : ℕ) : Scan :=
  let startBit := if r.currentRun = 0 then bit else r.startBit
  let currentRun := r.currentRun + 1
  if r.longestRun < currentRun then ⟨currentRun, startBit, currentRun, startBit⟩
  else ⟨currentRun, startBit, r.longestRun, r.longestStart⟩

/-- What the call takes when the scan ends without a run of the length asked for. -/
def longest (r : Scan) : Option (ℕ × ℕ) :=
  if 0 < r.longestRun then some (r.longestStart, r.longestRun) else none

end Scan

/-- The scan of `alloc_contiguous` over the next `n` bits: the run to take, if any. -/
def scanRun (bitmap : Buffer) (maxCount : ℕ) : (n bit : ℕ) → Scan → Option (ℕ × ℕ)
  | 0, _, r => r.longest
  | n + 1, bit, r =>
    if ext4BlockSize ≤ bit / 8 then r.longest
    else if bitmap (bit / 8) &&& 1#8 <<< (bit % 8) = 0#8 then
      if (r.clear bit).currentRun = maxCount then some ((r.clear bit).startBit, maxCount)
      else scanRun bitmap maxCount n (bit + 1) (r.clear bit)
    else scanRun bitmap maxCount n (bit + 1) { r with currentRun := 0 }

/-- `Ext4Bitmap::alloc_contiguous`: take a run of at most `maxCount` clear bits. -/
def allocContiguous (bitmap : Buffer) (bitmapSize maxCount : ℕ) : Option ((ℕ × ℕ) × Buffer) :=
  (scanRun bitmap maxCount (bitmapSize * 8) 0 ⟨0, 0, 0, 0⟩).map fun (start, count) =>
    ((start, count), setRange bitmap start count)

/-- The bits `start, …, start + count - 1` are clear. -/
def ClearRun (bitmap : Buffer) (start count : ℕ) : Prop :=
  ∀ m, start ≤ m → m < start + count → testBit bitmap m = false

/-- What the scan knows when it reaches `bit`: the current run is clear and ends here, the
longest run is clear and ended at or before here. -/
structure Scan.Sound (bitmap : Buffer) (maxCount bit : ℕ) (r : Scan) : Prop where
  current : ClearRun bitmap r.startBit r.currentRun
  currentEnd : r.currentRun ≠ 0 → r.startBit + r.currentRun = bit
  currentLt : r.currentRun < maxCount
  longest : ClearRun bitmap r.longestStart r.longestRun
  longestEnd : r.longestStart + r.longestRun ≤ bit
  longestLt : r.longestRun < maxCount

theorem Scan.Sound.init (bitmap : Buffer) {maxCount : ℕ} (hmax : 0 < maxCount) :
    Scan.Sound bitmap maxCount 0 ⟨0, 0, 0, 0⟩ :=
  ⟨fun m _ hm => absurd hm (by simp), fun h0 => absurd rfl h0, hmax,
    fun m _ hm => absurd hm (by simp), le_rfl, hmax⟩

variable {bitmap : Buffer}

@[simp] theorem Scan.clear_currentRun (r : Scan) (bit : ℕ) :
    (r.clear bit).currentRun = r.currentRun + 1 := by
  by_cases h : r.longestRun < r.currentRun + 1 <;> simp [Scan.clear, h]

theorem Scan.clear_startBit (r : Scan) (bit : ℕ) :
    (r.clear bit).startBit = if r.currentRun = 0 then bit else r.startBit := by
  by_cases h : r.longestRun < r.currentRun + 1 <;> simp [Scan.clear, h]

section Scan

variable {maxCount bit : ℕ} {r : Scan}

/-- Passing a clear bit extends the current run by it. -/
theorem Scan.Sound.run (h : r.Sound bitmap maxCount bit) (hclear : testBit bitmap bit = false) :
    ClearRun bitmap (r.clear bit).startBit (r.currentRun + 1) ∧
      (r.clear bit).startBit + (r.currentRun + 1) = bit + 1 := by
  rw [Scan.clear_startBit]
  by_cases h0 : r.currentRun = 0
  · rw [if_pos h0, h0]
    refine ⟨fun m h1 h2 => ?_, by omega⟩
    rw [show m = bit by omega, hclear]
  · rw [if_neg h0]
    have hbit := h.currentEnd h0
    refine ⟨fun m h1 h2 => ?_, by omega⟩
    by_cases hm : m = bit
    · rw [hm, hclear]
    · exact h.current m h1 (by omega)

theorem Scan.Sound.clear (h : r.Sound bitmap maxCount bit) (hclear : testBit bitmap bit = false)
    (hne : r.currentRun + 1 ≠ maxCount) : (r.clear bit).Sound bitmap maxCount (bit + 1) := by
  obtain ⟨hrun, hend⟩ := h.run hclear
  have hlt : r.currentRun + 1 < maxCount := by
    have := h.currentLt
    omega
  have hlong : r.longestStart + r.longestRun ≤ bit + 1 := by
    have := h.longestEnd
    omega
  rw [Scan.clear_startBit] at hrun hend
  by_cases hlonger : r.longestRun < r.currentRun + 1
  · simp only [Scan.clear, if_pos hlonger]
    exact ⟨hrun, fun _ => hend, hlt, hrun, hend.le, hlt⟩
  · simp only [Scan.clear, if_neg hlonger]
    exact ⟨hrun, fun _ => hend, hlt, h.longest, hlong, h.longestLt⟩

theorem Scan.Sound.stop (h : r.Sound bitmap maxCount bit) :
    { r with currentRun := 0 }.Sound bitmap maxCount (bit + 1) where
  current := fun m h1 h2 => absurd h1 (by simp only at h2 ⊢; omega)
  currentEnd := fun h0 => absurd rfl h0
  currentLt := Nat.zero_lt_of_lt h.currentLt
  longest := h.longest
  longestEnd := Nat.le_succ_of_le h.longestEnd
  longestLt := h.longestLt

/-- The longest run so far is what the call falls back to. -/
theorem Scan.Sound.longest_eq_some (h : r.Sound bitmap maxCount bit) {start count : ℕ}
    (hr : r.longest = some (start, count)) :
    ClearRun bitmap start count ∧ 0 < count ∧ count ≤ maxCount ∧ start + count ≤ bit := by
  unfold Scan.longest at hr
  split at hr
  · cases hr
    exact ⟨h.longest, ‹_›, h.longestLt.le, h.longestEnd⟩
  · cases hr

end Scan

/-- What the scan finds is a clear run within the bits it looks at. -/
theorem scanRun_eq_some {maxCount n bit : ℕ} {r : Scan} {start count : ℕ}
    (hr : r.Sound bitmap maxCount bit) (hbit : bit ≤ ext4BlockSize * 8)
    (h : scanRun bitmap maxCount n bit r = some (start, count)) :
    ClearRun bitmap start count ∧ 0 < count ∧ count ≤ maxCount ∧
      start + count ≤ ext4BlockSize * 8 := by
  induction n generalizing bit r with
  | zero =>
    obtain ⟨h1, h2, h3, h4⟩ := hr.longest_eq_some h
    exact ⟨h1, h2, h3, by omega⟩
  | succ n ih =>
    unfold scanRun at h
    split at h
    · obtain ⟨h1, h2, h3, h4⟩ := hr.longest_eq_some h
      exact ⟨h1, h2, h3, by omega⟩
    · rename_i hin
      split at h
      · rename_i hmask
        have hclear : testBit bitmap bit = false :=
          (and_one_shiftLeft_eq_zero_iff _ (Nat.mod_lt _ (by omega))).mp hmask
        rw [Scan.clear_currentRun] at h
        split at h
        · rename_i hmax
          cases h
          obtain ⟨hrun, hend⟩ := hr.run hclear
          rw [hmax] at hrun hend
          exact ⟨hrun, by omega, le_rfl, by omega⟩
        · rename_i hne
          exact ih (hr.clear hclear hne) (by omega) h
      · exact ih hr.stop (by omega) h

/-- What `alloc_contiguous` hands out is a non-empty clear run of the buffer, no longer than
asked for, and it sets exactly that run. -/
theorem allocContiguous_eq_some {bitmap' : Buffer} {size maxCount start count : ℕ}
    (hmax : 0 < maxCount)
    (h : allocContiguous bitmap size maxCount = some ((start, count), bitmap')) :
    ClearRun bitmap start count ∧ 0 < count ∧ count ≤ maxCount ∧
      start + count ≤ ext4BlockSize * 8 ∧ bitmap' = setRange bitmap start count := by
  obtain ⟨⟨st, n⟩, hscan, heq⟩ := Option.map_eq_some_iff.mp h
  cases heq
  obtain ⟨h1, h2, h3, h4⟩ :=
    scanRun_eq_some (Scan.Sound.init bitmap hmax) (Nat.zero_le _) hscan
  exact ⟨h1, h2, h3, h4, rfl⟩

/-! ## Freeing -/

/-- The loop of `dealloc_contiguous`. -/
def clearLoop (bitmap : Buffer) : (count byteIndex bitIndex : ℕ) → Buffer
  | 0, _, _ => bitmap
  | n + 1, byteIndex, bitIndex =>
    let bitmap' := Function.update bitmap byteIndex
      (bitmap byteIndex &&& ~~~(1#8 <<< bitIndex))
    if bitIndex = 7 then clearLoop bitmap' n (byteIndex + 1) 0
    else clearLoop bitmap' n byteIndex (bitIndex + 1)

/-- `Ext4Bitmap::dealloc_contiguous`.  The guard compares the byte index plus the number of
*bits* with the bitmap's size in bytes; when it fails the call does nothing. -/
def deallocContiguous (bitmap : Buffer) (startBlock blockCount bitmapSize : ℕ) : Buffer :=
  let byteIndex := startBlock / 8
  if byteIndex < ext4BlockSize ∧ byteIndex + blockCount < bitmapSize then
    clearLoop bitmap blockCount byteIndex (startBlock % 8)
  else bitmap

/-- The loop clears one bit after the other. -/
theorem clearLoop_succ (bitmap : Buffer) (count start : ℕ) :
    clearLoop bitmap (count + 1) (start / 8) (start % 8) =
      clearLoop (clearBit bitmap start) count ((start + 1) / 8) ((start + 1) % 8) := by
  unfold clearLoop
  by_cases h7 : start % 8 = 7
  · rw [show (start + 1) / 8 = start / 8 + 1 by omega, show (start + 1) % 8 = 0 by omega]
    simp only [h7, if_true]
    rw [clearBit, h7]
    cases count <;> rfl
  · rw [show (start + 1) / 8 = start / 8 by omega,
      show (start + 1) % 8 = start % 8 + 1 by omega]
    simp only [h7, if_false]
    rw [clearBit]
    cases count <;> rfl

theorem testBit_clearLoop (bitmap : Buffer) (count start m : ℕ) :
    testBit (clearLoop bitmap count (start / 8) (start % 8)) m =
      (!decide (start ≤ m ∧ m < start + count) && testBit bitmap m) := by
  induction count generalizing bitmap start with
  | zero =>
    have : ¬ (start ≤ m ∧ m < start) := by omega
    simp [clearLoop, this]
  | succ count ih =>
    rw [clearLoop_succ, ih, testBit_clearBit, ← Bool.and_assoc, ← Bool.not_or, ← Bool.decide_or]
    congr 3
    rw [eq_iff_iff]
    omega

/-- Freeing a run clears bits of that run only. -/
theorem testBit_deallocContiguous (bitmap : Buffer) (start count size m : ℕ)
    (hm : ¬ (start ≤ m ∧ m < start + count)) :
    testBit (deallocContiguous bitmap start count size) m = testBit bitmap m := by
  unfold deallocContiguous
  dsimp only
  split
  · rw [testBit_clearLoop]
    simp [hm]
  · rfl

end Ext4Bitmap

end QuackOS.Ext4
