import QuackOS.Ext4.Bitmap
import Mathlib.Order.Lattice.Nat

/-!
# What the bitmap calls hand out

The three calls of `Ext4Bitmap` measured against what a bitmap of `size` bytes holds: the
first `8 * size` bits, whatever stands behind them in the block.

* `alloc` chooses the first clear bit of the *block* and sets it before it looks at the
  size, and it takes the byte at `size` for one of the bitmap's.  It does what it should
  exactly when a bit of the bitmap is clear or no bit of the block is (`alloc_right_iff`).
* `alloc_contiguous` takes the first of the longest clear runs, cut to the length asked for
  (`scanRun_spec`); its length is the least of the two (`allocContiguous_longest`).
* `dealloc_contiguous` takes that run back exactly when its first byte and its number of
  *bits* together stay below the size in bytes (`undoes_iff`).
-/

namespace QuackOS.Ext4

namespace Ext4Bitmap

open Buffer

variable {bitmap : Buffer}

/-- Two buffers with the same bits are the same. -/
theorem ext_testBit {b c : Buffer} (h : ∀ m, testBit b m = testBit c m) : b = c := by
  funext i
  refine BitVec.eq_of_getLsbD_eq fun j hj => ?_
  have := h (i * 8 + j)
  rwa [testBit, testBit, show (i * 8 + j) / 8 = i by omega,
    show (i * 8 + j) % 8 = j by omega] at this

theorem setBit_ne {m : ℕ} (hclear : testBit bitmap m = false) : setBit bitmap m ≠ bitmap := by
  intro h
  have := congrArg (fun b => testBit b m) h
  simp [hclear] at this

/-! ## One bit -/

/-- The bits of a bitmap of `size` bytes are all set. -/
def Full (bitmap : Buffer) (size : ℕ) : Prop := ∀ m < 8 * size, testBit bitmap m = true

theorem not_full_iff {size : ℕ} :
    ¬ Full bitmap size ↔ ∃ m < 8 * size, testBit bitmap m = false := by
  simp [Full]

/-- What `alloc` should do: hand out a clear bit of the bitmap and set it alone, or refuse a
full bitmap and leave it. -/
structure AllocRight (bitmap : Buffer) (size : ℕ) : Prop where
  taken : ∀ i bitmap', alloc bitmap size = (some i, bitmap') →
    i < 8 * size ∧ testBit bitmap i = false ∧
      ∀ m, testBit bitmap' m = (decide (m = i) || testBit bitmap m)
  refused : (alloc bitmap size).1 = none ↔ Full bitmap size
  unchanged : ∀ bitmap', alloc bitmap size = (none, bitmap') → bitmap' = bitmap

/-- A block without a clear bit is searched to its end. -/
theorem firstClear_eq_none_iff : firstClear bitmap = none ↔ Full bitmap ext4BlockSize := by
  constructor
  · intro h m hm
    by_contra hclear
    obtain ⟨hff, hmask⟩ := find_clear (Bool.eq_false_iff.mpr hclear)
    have hbyte := List.findSome?_eq_none_iff.mp h (m / 8) (List.mem_range.mpr (by omega))
    rw [if_pos hff, Option.map_eq_none_iff, List.find?_eq_none] at hbyte
    exact hbyte (m % 8) (List.mem_range.mpr (by omega)) (decide_eq_true hmask)
  · intro hfull
    cases hfirst : firstClear bitmap with
    | none => rfl
    | some found =>
      obtain ⟨hi, hj, hclear⟩ := firstClear_eq_some hfirst
      rw [hfull _ (by omega)] at hclear
      cases hclear

/-- `alloc` sets the first clear bit of the block, and hands it out when its byte is not
past `size`. -/
theorem alloc_of_first {size i j : ℕ} (h : firstClear bitmap = some (i, j)) :
    alloc bitmap size =
      (if i ≤ size then some (i * 8 + j) else none, setBit bitmap (i * 8 + j)) := by
  obtain ⟨-, hj, -⟩ := firstClear_eq_some h
  unfold alloc
  simp only [h]
  rw [setBit, show (i * 8 + j) / 8 = i by omega, show (i * 8 + j) % 8 = j by omega]

/-- The search stops at the first clear bit. -/
theorem firstClear_le {i j m : ℕ} (h : firstClear bitmap = some (i, j))
    (hm : m < ext4BlockSize * 8) (hclear : testBit bitmap m = false) : i * 8 + j ≤ m := by
  have halloc := @alloc_of_first bitmap i i j h
  rw [if_pos le_rfl] at halloc
  exact alloc_le halloc hm hclear

theorem alloc_of_full {size : ℕ} (h : Full bitmap ext4BlockSize) :
    alloc bitmap size = (none, bitmap) := by
  unfold alloc
  simp only [firstClear_eq_none_iff.mpr h]

/-- A bitmap with a clear bit: the call takes the first one. -/
theorem allocRight_of_clear {size m : ℕ} (hsize : size ≤ ext4BlockSize) (hm : m < 8 * size)
    (hclear : testBit bitmap m = false) : AllocRight bitmap size := by
  cases hfirst : firstClear bitmap with
  | none =>
    rw [firstClear_eq_none_iff.mp hfirst m (by omega)] at hclear
    cases hclear
  | some found =>
    obtain ⟨i, j⟩ := found
    obtain ⟨-, -, hbit⟩ := firstClear_eq_some hfirst
    have hle := firstClear_le hfirst (by omega) hclear
    have halloc := @alloc_of_first bitmap size i j hfirst
    rw [if_pos (by omega)] at halloc
    refine ⟨fun n bitmap' h => ?_, ?_, fun bitmap' h => ?_⟩
    · rw [halloc] at h
      cases h
      exact ⟨by omega, hbit, fun k => testBit_setBit bitmap (i * 8 + j) k⟩
    · rw [halloc]
      exact iff_of_false (by simp) (not_full_iff.mpr ⟨m, hm, hclear⟩)
    · rw [halloc] at h
      cases h

/-- A block without a clear bit: the call refuses and leaves it. -/
theorem allocRight_of_full {size : ℕ} (hsize : size ≤ ext4BlockSize)
    (hfull : Full bitmap ext4BlockSize) : AllocRight bitmap size := by
  have halloc := @alloc_of_full bitmap size hfull
  refine ⟨fun n bitmap' h => ?_, ?_, fun bitmap' h => ?_⟩
  · rw [halloc] at h
    cases h
  · rw [halloc]
    exact iff_of_true rfl fun m hm => hfull m (by omega)
  · rw [halloc] at h
    exact (Prod.mk.inj h).2.symm

/-- A full bitmap with a clear bit behind it in the block: the bit is set, whether the call
then hands it out or refuses. -/
theorem not_allocRight {size i j : ℕ} (hfull : Full bitmap size)
    (hfirst : firstClear bitmap = some (i, j)) : ¬ AllocRight bitmap size := by
  intro hright
  obtain ⟨-, -, hclear⟩ := firstClear_eq_some hfirst
  have hnone := hright.refused.mpr hfull
  have hkept := hright.unchanged (setBit bitmap (i * 8 + j))
    (Prod.ext hnone (by rw [alloc_of_first hfirst]))
  exact setBit_ne hclear hkept

/-- **When `alloc` is right.**  A full bitmap that does not fill its block is what it gets
wrong: the first clear bit behind the bitmap is set, and handed out if it stands in the
first byte there. -/
theorem alloc_right_iff {size : ℕ} (hsize : size ≤ ext4BlockSize) :
    AllocRight bitmap size ↔ ¬ Full bitmap size ∨ Full bitmap ext4BlockSize := by
  constructor
  · intro hright
    by_contra hwrong
    push Not at hwrong
    obtain ⟨hfull, hblock⟩ := hwrong
    cases hfirst : firstClear bitmap with
    | none => exact hblock (firstClear_eq_none_iff.mp hfirst)
    | some found => exact not_allocRight hfull hfirst hright
  · rintro (hroom | hblock)
    · obtain ⟨m, hm, hclear⟩ := not_full_iff.mp hroom
      exact allocRight_of_clear hsize hm hclear
    · exact allocRight_of_full hsize hblock

/-- A bitmap of one byte in a block of zeros: the first bit is free. -/
theorem alloc_right_one :
    (¬ Full (fun _ => 0#8) 1 ∨ Full (fun _ => 0#8) ext4BlockSize) ∧
      AllocRight (fun _ => 0#8) 1 := by
  have hroom : ¬ Full (fun _ => 0#8) 1 := not_full_iff.mpr ⟨0, by decide, by decide⟩
  exact ⟨.inl hroom, (alloc_right_iff (by decide)).mpr (.inl hroom)⟩

/-- A bitmap of one full byte, with zeros behind it in its block. -/
def fullByte : Buffer := fun i => if i = 0 then 0xff#8 else 0#8

/-- The bitmap is full, and bit 8, which is not one of its bits, is handed out. -/
theorem full_bitmap_hands_out :
    Full fullByte 1 ∧ (alloc fullByte 1).1 = some 8 ∧ ¬ AllocRight fullByte 1 := by
  have hfirst : firstClear fullByte = some (1, 0) := by decide +kernel
  have hfull : Full fullByte 1 := by unfold Full; decide
  refine ⟨hfull, ?_, not_allocRight hfull hfirst⟩
  rw [alloc_of_first hfirst]
  rfl

/-! ## The longest run -/

theorem ClearRun.sub {start count start' count' : ℕ} (h : ClearRun bitmap start count)
    (hstart : start ≤ start') (hend : start' + count' ≤ start + count) :
    ClearRun bitmap start' count' :=
  fun m h1 h2 => h m (by omega) (by omega)

/-- The first of the longest clear runs among the first `total` bits, of at most `maxCount`
bits. -/
structure FirstLongest (bitmap : Buffer) (total maxCount start count : ℕ) : Prop where
  run : ClearRun bitmap start count
  pos : 0 < count
  within : start + count ≤ total
  le_max : count ≤ maxCount
  longest : ∀ st k, ClearRun bitmap st k → st + k ≤ total → k ≤ maxCount → k ≤ count
  first : ∀ st, ClearRun bitmap st count → st + count ≤ total → start ≤ st

/-- There is only one. -/
theorem FirstLongest.unique {total maxCount start count start' count' : ℕ}
    (h : FirstLongest bitmap total maxCount start count)
    (h' : FirstLongest bitmap total maxCount start' count') : start = start' ∧ count = count' := by
  have hcount : count = count' :=
    le_antisymm (h'.longest _ _ h.run h.within h.le_max)
      (h.longest _ _ h'.run h'.within h'.le_max)
  subst hcount
  exact ⟨le_antisymm (h.first _ h'.run h'.within) (h'.first _ h.run h.within), rfl⟩

/-- A bitmap with a run to take is not full. -/
theorem FirstLongest.not_full {size maxCount start count : ℕ}
    (h : FirstLongest bitmap (8 * size) maxCount start count) : ¬ Full bitmap size := by
  have hpos := h.pos
  have hend := h.within
  exact not_full_iff.mpr ⟨start, by omega, h.run start le_rfl (by omega)⟩

/-- The lengths of the clear runs among the first `total` bits. -/
def runLengths (bitmap : Buffer) (total : ℕ) : Set ℕ :=
  {k | ∃ start, ClearRun bitmap start k ∧ start + k ≤ total}

/-- There is a longest clear run. -/
theorem exists_longest (bitmap : Buffer) (total : ℕ) :
    ∃ longest, IsGreatest (runLengths bitmap total) longest := by
  have hbound : BddAbove (runLengths bitmap total) := by
    refine ⟨total, ?_⟩
    rintro k ⟨start, -, hend⟩
    omega
  have hzero : (runLengths bitmap total).Nonempty :=
    ⟨0, 0, fun m h1 h2 => absurd h2 (by omega), by omega⟩
  exact ⟨_, Nat.sSup_mem hzero hbound, fun k hk => le_csSup hbound hk⟩

/-- The first of the longest runs has the length asked for, or that of the longest there
is. -/
theorem FirstLongest.count_eq {total maxCount start count longest : ℕ}
    (h : FirstLongest bitmap total maxCount start count)
    (hlongest : IsGreatest (runLengths bitmap total) longest) :
    count = min maxCount longest := by
  have hle : count ≤ longest := hlongest.2 ⟨start, h.run, h.within⟩
  obtain ⟨st, hrun, hend⟩ := hlongest.1
  apply le_antisymm (le_min h.le_max hle)
  exact h.longest st _ (hrun.sub le_rfl (by omega)) (by omega) (min_le_left _ _)

/-- What else the scan knows when it reaches `bit`: no run that ends here starts before the
current one, and no run that ends at or before here is longer than the longest, or as long
and earlier. -/
structure Scan.Best (bitmap : Buffer) (bit : ℕ) (r : Scan) : Prop where
  current : ∀ st ≤ bit, ClearRun bitmap st (bit - st) → bit ≤ st + r.currentRun
  longest : ∀ st k, ClearRun bitmap st k → st + k ≤ bit → k ≤ r.longestRun
  first : ∀ st k, ClearRun bitmap st k → st + k ≤ bit → 0 < k → k = r.longestRun →
    r.longestStart ≤ st

theorem Scan.Best.init (bitmap : Buffer) : Scan.Best bitmap 0 ⟨0, 0, 0, 0⟩ :=
  ⟨fun _ _ _ => Nat.zero_le _, fun _ _ _ hend => by omega, fun _ _ _ hend hpos => by omega⟩

section Best

variable {maxCount bit : ℕ} {r : Scan}

/-- A run that ends behind a clear bit has come no further than the current one. -/
theorem Scan.Best.run (h : r.Best bitmap bit) {st k : ℕ} (hrun : ClearRun bitmap st k)
    (hend : st + k = bit + 1) : k ≤ r.currentRun + 1 := by
  rcases Nat.eq_zero_or_pos k with rfl | hk
  · omega
  · have := h.current st (by omega) (hrun.sub le_rfl (by omega))
    omega

/-- The longest run after a clear bit, by whether the current one has outgrown it. -/
theorem Scan.clear_longest (r : Scan) (bit : ℕ) :
    (r.longestRun < r.currentRun + 1 ∧ (r.clear bit).longestRun = r.currentRun + 1 ∧
        (r.clear bit).longestStart = (r.clear bit).startBit) ∨
      (r.currentRun + 1 ≤ r.longestRun ∧ (r.clear bit).longestRun = r.longestRun ∧
        (r.clear bit).longestStart = r.longestStart) := by
  by_cases h : r.longestRun < r.currentRun + 1
  · exact .inl ⟨h, by simp [Scan.clear, h], by simp [Scan.clear, h]⟩
  · exact .inr ⟨by omega, by simp [Scan.clear, h], by simp [Scan.clear, h]⟩

theorem Scan.Best.clear (h : r.Best bitmap bit) (hsound : r.Sound bitmap maxCount bit)
    (hclear : testBit bitmap bit = false) : (r.clear bit).Best bitmap (bit + 1) := by
  obtain ⟨-, hstart⟩ := hsound.run hclear
  have hbefore := hsound.longestEnd
  have hlongest := r.clear_longest bit
  refine ⟨fun st hst hrun => ?_, fun st k hrun hend => ?_, fun st k hrun hend hpos heq => ?_⟩
  · have := h.run hrun (by omega)
    rw [Scan.clear_currentRun]
    omega
  · rcases Nat.lt_or_ge bit (st + k) with hlast | hearlier
    · have := h.run hrun (by omega)
      omega
    · have := h.longest st k hrun hearlier
      omega
  · rcases Nat.lt_or_ge bit (st + k) with hlast | hearlier
    · -- a run as long as the current one that ends with it starts with it
      have := h.run hrun (by omega)
      omega
    · have := h.longest st k hrun hearlier
      have := h.first st k hrun hearlier hpos
      omega

theorem Scan.Best.stop (h : r.Best bitmap bit) (hset : testBit bitmap bit = true) :
    { r with currentRun := 0 }.Best bitmap (bit + 1) := by
  -- no run reaches over the set bit
  have hover : ∀ st k, ClearRun bitmap st k → st + k ≤ bit + 1 → 0 < k → st + k ≤ bit := by
    intro st k hrun hend hpos
    by_contra hlast
    have := hrun bit (by omega) (by omega)
    rw [hset] at this
    cases this
  refine ⟨fun st hst hrun => ?_, fun st k hrun hend => ?_, fun st k hrun hend hpos heq => ?_⟩
  · by_contra hlt
    have := hover st (bit + 1 - st) hrun (by omega) (by omega)
    omega
  · rcases Nat.eq_zero_or_pos k with rfl | hpos
    · exact Nat.zero_le _
    · exact h.longest st k hrun (hover st k hrun hend hpos)
  · exact h.first st k hrun (hover st k hrun hend hpos) hpos heq

/-- The run that has reached the length asked for is the first that long. -/
theorem Scan.Best.firstLongest_current {total : ℕ} (h : r.Best bitmap bit)
    (hsound : r.Sound bitmap maxCount bit) (hclear : testBit bitmap bit = false)
    (hmax : r.currentRun + 1 = maxCount) (hbit : bit < total) :
    FirstLongest bitmap total maxCount (r.clear bit).startBit maxCount := by
  obtain ⟨hrun, hstart⟩ := hsound.run hclear
  rw [hmax] at hrun hstart
  refine ⟨hrun, by omega, by omega, le_rfl, fun st k _ _ hk => hk, fun st hst hend => ?_⟩
  by_contra hlt
  have hshort := h.longest st maxCount hst (by omega)
  have := hsound.longestLt
  omega

/-- At the end of the bitmap the longest run is the one to take. -/
theorem Scan.Best.firstLongest_longest (h : r.Best bitmap bit)
    (hsound : r.Sound bitmap maxCount bit) (hpos : 0 < r.longestRun) :
    FirstLongest bitmap bit maxCount r.longestStart r.longestRun where
  run := hsound.longest
  pos := hpos
  within := hsound.longestEnd
  le_max := hsound.longestLt.le
  longest := fun st k hrun hend _ => h.longest st k hrun hend
  first := fun st hrun hend => h.first st _ hrun hend hpos rfl

end Best

/-- **The scan.**  It finds the first of the longest clear runs, and none only where every
bit is set. -/
theorem scanRun_spec {maxCount n bit : ℕ} {r : Scan} (hsound : r.Sound bitmap maxCount bit)
    (hbest : r.Best bitmap bit) (hblock : bit + n ≤ ext4BlockSize * 8) :
    (∀ start count, scanRun bitmap maxCount n bit r = some (start, count) →
      FirstLongest bitmap (bit + n) maxCount start count) ∧
    (scanRun bitmap maxCount n bit r = none →
      ∀ m < bit + n, testBit bitmap m = true) := by
  induction n generalizing bit r with
  | zero =>
    rw [scanRun, Scan.longest, Nat.add_zero]
    by_cases hpos : 0 < r.longestRun
    · rw [if_pos hpos]
      refine ⟨fun start count h => ?_, fun h => (Option.some_ne_none _ h).elim⟩
      cases h
      exact hbest.firstLongest_longest hsound hpos
    · rw [if_neg hpos]
      refine ⟨fun start count h => (Option.some_ne_none _ h.symm).elim, fun _ m hm => ?_⟩
      by_contra hclear
      have hone : ClearRun bitmap m 1 := fun k h1 h2 => by
        rw [show k = m by omega]
        exact Bool.eq_false_iff.mpr hclear
      exact hpos (hbest.longest m 1 hone hm)
  | succ n ih =>
    rw [scanRun, if_neg (by omega)]
    by_cases hmask : bitmap (bit / 8) &&& 1#8 <<< (bit % 8) = 0#8
    · have hclear : testBit bitmap bit = false :=
        (and_one_shiftLeft_eq_zero_iff _ (Nat.mod_lt _ (by omega))).mp hmask
      rw [if_pos hmask, Scan.clear_currentRun]
      by_cases hmax : r.currentRun + 1 = maxCount
      · rw [if_pos hmax]
        refine ⟨fun start count h => ?_, fun h => (Option.some_ne_none _ h).elim⟩
        cases h
        exact hbest.firstLongest_current hsound hclear hmax (by omega)
      · rw [if_neg hmax, show bit + (n + 1) = bit + 1 + n by omega]
        exact ih (hsound.clear hclear hmax) (hbest.clear hsound hclear) (by omega)
    · have hset : testBit bitmap bit = true := by
        by_contra hclear
        exact hmask ((and_one_shiftLeft_eq_zero_iff _ (Nat.mod_lt _ (by omega))).mpr
          (Bool.eq_false_iff.mpr hclear))
      rw [if_neg hmask, show bit + (n + 1) = bit + 1 + n by omega]
      exact ih hsound.stop (hbest.stop hset) (by omega)

section Contiguous

variable {size maxCount : ℕ}

/-- What `alloc_contiguous` takes is the first of the longest runs. -/
theorem allocContiguous_first (hsize : size ≤ ext4BlockSize) (hmax : 0 < maxCount)
    {start count : ℕ} {bitmap' : Buffer}
    (h : allocContiguous bitmap size maxCount = some ((start, count), bitmap')) :
    FirstLongest bitmap (8 * size) maxCount start count ∧
      bitmap' = setRange bitmap start count := by
  obtain ⟨⟨st, n⟩, hscan, heq⟩ := Option.map_eq_some_iff.mp h
  cases heq
  have hfirst := (scanRun_spec (Scan.Sound.init bitmap hmax) (Scan.Best.init bitmap)
    (show 0 + size * 8 ≤ ext4BlockSize * 8 by omega)).1 _ _ hscan
  rw [show 0 + size * 8 = 8 * size by omega] at hfirst
  exact ⟨hfirst, rfl⟩

theorem allocContiguous_eq_none_iff (hsize : size ≤ ext4BlockSize) (hmax : 0 < maxCount) :
    allocContiguous bitmap size maxCount = none ↔ Full bitmap size := by
  constructor
  · intro h m hm
    rw [allocContiguous, Option.map_eq_none_iff] at h
    exact (scanRun_spec (Scan.Sound.init bitmap hmax) (Scan.Best.init bitmap)
      (show 0 + size * 8 ≤ ext4BlockSize * 8 by omega)).2 h m (by omega)
  · intro hfull
    cases h : allocContiguous bitmap size maxCount with
    | none => rfl
    | some taken =>
      obtain ⟨⟨start, count⟩, bitmap'⟩ := taken
      obtain ⟨hfirst, -⟩ := allocContiguous_first hsize hmax h
      exact absurd hfull hfirst.not_full

/-- The bitmap after `alloc_contiguous`, which writes into it only where it takes a run. -/
def afterContiguous (bitmap : Buffer) (size maxCount : ℕ) : Buffer :=
  match allocContiguous bitmap size maxCount with
  | some (_, bitmap') => bitmap'
  | none => bitmap

/-- **Run allocation.**  Only a full bitmap is refused; otherwise the run lies in the
bitmap, was clear and is now set, nothing else has changed, and it is as long as asked for
or as the longest there is. -/
theorem allocContiguous_longest (hsize : size ≤ ext4BlockSize) (hmax : 0 < maxCount) :
    (allocContiguous bitmap size maxCount = none ↔ Full bitmap size) ∧
    (allocContiguous bitmap size maxCount = none →
      afterContiguous bitmap size maxCount = bitmap) ∧
    ∀ start count bitmap', allocContiguous bitmap size maxCount = some ((start, count), bitmap') →
      start + count ≤ 8 * size ∧ ClearRun bitmap start count ∧
      (∀ m, testBit bitmap' m =
        (decide (start ≤ m ∧ m < start + count) || testBit bitmap m)) ∧
      ∃ longest, IsGreatest (runLengths bitmap (8 * size)) longest ∧
        count = min maxCount longest := by
  refine ⟨allocContiguous_eq_none_iff hsize hmax, fun h => ?_, fun start count bitmap' h => ?_⟩
  · rw [afterContiguous, h]
  · obtain ⟨hfirst, rfl⟩ := allocContiguous_first hsize hmax h
    obtain ⟨longest, hlongest⟩ := exists_longest bitmap (8 * size)
    exact ⟨hfirst.within, hfirst.run, testBit_setRange bitmap start count, longest, hlongest,
      hfirst.count_eq hlongest⟩

/-- A bitmap of zeros of eight bits, asked for three of them. -/
theorem allocContiguous_longest_three :
    (allocContiguous (fun _ => 0#8) 1 3 = none ↔ Full (fun _ => 0#8) 1) ∧
    (allocContiguous (fun _ => 0#8) 1 3 = none →
      afterContiguous (fun _ => 0#8) 1 3 = fun _ => 0#8) ∧
    ∀ start count bitmap',
      allocContiguous (fun _ => 0#8) 1 3 = some ((start, count), bitmap') →
      start + count ≤ 8 * 1 ∧ ClearRun (fun _ => 0#8) start count ∧
      (∀ m, testBit bitmap' m =
        (decide (start ≤ m ∧ m < start + count) || testBit (fun _ => 0#8) m)) ∧
      ∃ longest, IsGreatest (runLengths (fun _ => 0#8) (8 * 1)) longest ∧
        count = min 3 longest :=
  allocContiguous_longest (by decide) (by decide)

/-! ## Freeing what was allocated -/

/-- Freeing a run of clear bits that has been set brings the bitmap back, if the guard of
`dealloc_contiguous` lets it. -/
theorem dealloc_setRange {start count : ℕ} (hrun : ClearRun bitmap start count)
    (hblock : start / 8 < ext4BlockSize) (hguard : start / 8 + count < size) :
    deallocContiguous (setRange bitmap start count) start count size = bitmap := by
  unfold deallocContiguous
  rw [if_pos ⟨hblock, hguard⟩]
  refine ext_testBit fun m => ?_
  rw [testBit_clearLoop, testBit_setRange]
  by_cases hm : start ≤ m ∧ m < start + count
  · simp [hm, hrun m hm.1 hm.2]
  · simp [hm]

/-- A run the guard stops stays set. -/
theorem dealloc_setRange_ne {start count : ℕ} (hrun : ClearRun bitmap start count)
    (hpos : 0 < count) (hguard : ¬ start / 8 + count < size) :
    deallocContiguous (setRange bitmap start count) start count size ≠ bitmap := by
  unfold deallocContiguous
  rw [if_neg fun h => hguard h.2]
  intro h
  have hbit := congrArg (fun b => testBit b start) h
  rw [testBit_setRange, hrun start le_rfl (by omega)] at hbit
  simp [hpos] at hbit

/-- Freeing what `alloc_contiguous` has taken brings the bitmap back. -/
def Undoes (bitmap : Buffer) (size maxCount : ℕ) : Prop :=
  ∀ start count bitmap', allocContiguous bitmap size maxCount = some ((start, count), bitmap') →
    deallocContiguous bitmap' start count size = bitmap

/-- A run the guard stops is not given back. -/
theorem not_undoes {start count : ℕ} (hsize : size ≤ ext4BlockSize) (hmax : 0 < maxCount)
    (hfirst : FirstLongest bitmap (8 * size) maxCount start count)
    (hguard : ¬ start / 8 + count < size) : ¬ Undoes bitmap size maxCount := by
  intro hundoes
  cases h : allocContiguous bitmap size maxCount with
  | none => exact absurd ((allocContiguous_eq_none_iff hsize hmax).mp h) hfirst.not_full
  | some taken =>
    obtain ⟨⟨st, n⟩, bitmap'⟩ := taken
    obtain ⟨htaken, rfl⟩ := allocContiguous_first hsize hmax h
    obtain ⟨rfl, rfl⟩ := hfirst.unique htaken
    exact dealloc_setRange_ne hfirst.run hfirst.pos hguard (hundoes _ _ _ h)

/-- **When freeing undoes allocating.**  The number of the first byte of the run and the
number of its bits must together stay below the size of the bitmap in bytes. -/
theorem undoes_iff (hsize : size ≤ ext4BlockSize) (hmax : 0 < maxCount) :
    Undoes bitmap size maxCount ↔
      ∀ start count, FirstLongest bitmap (8 * size) maxCount start count →
        start / 8 + count < size := by
  constructor
  · intro hundoes start count hfirst
    by_contra hguard
    exact not_undoes hsize hmax hfirst hguard hundoes
  · intro hguard start count bitmap' h
    obtain ⟨hfirst, rfl⟩ := allocContiguous_first hsize hmax h
    have hend := hfirst.within
    have hpos := hfirst.pos
    exact dealloc_setRange hfirst.run (by omega) (hguard _ _ hfirst)

/-- In a bitmap of zeros the first run is the one at the front. -/
theorem firstLongest_zero {total : ℕ} (hmax : 0 < maxCount) (htotal : maxCount ≤ total) :
    FirstLongest (fun _ => 0#8) total maxCount 0 maxCount where
  run := fun m _ _ => by simp [testBit]
  pos := hmax
  within := by omega
  le_max := le_rfl
  longest := fun _ _ _ _ hk => hk
  first := fun _ _ _ => Nat.zero_le _

/-- Eight blocks are given back in a group of 4096 bytes of bitmap. -/
theorem undoes_eight :
    (∀ start count, FirstLongest (fun _ => 0#8) (8 * 4096) 8 start count →
      start / 8 + count < 4096) ∧ Undoes (fun _ => 0#8) 4096 8 := by
  have hguard : ∀ start count, FirstLongest (fun _ => 0#8) (8 * 4096) 8 start count →
      start / 8 + count < 4096 := by
    intro start count h
    obtain ⟨rfl, rfl⟩ := h.unique (firstLongest_zero (by decide) (by decide))
    decide
  exact ⟨hguard, (undoes_iff (by decide) (by decide)).mpr hguard⟩

/-- 4096 blocks are not, though the group is empty and holds 32768 of them. -/
theorem empty_group_not_undone : ¬ Undoes (fun _ => 0#8) 4096 4096 :=
  not_undoes (by decide) (by decide) (firstLongest_zero (by decide) (by decide)) (by decide)

end Contiguous

end Ext4Bitmap

end QuackOS.Ext4
