import Mathlib.Data.Nat.ModEq
import Mathlib.Data.BitVec
import Mathlib.Logic.Function.Basic
import Mathlib.Tactic.Ring

/-!
# Byte buffers

Memory blocks and storage devices as functions from positions to bytes, and the three ways
systems code looks at them:

* **fields** — little-endian numbers of `n` bytes at an offset (`getLe`, `putLe`);
* **bits** — the buffer as a bitmap, bit `n` being bit `n % 8` of byte `n / 8` (`testBit`,
  `setBit`, `clearBit`, `setRange`), with the number of clear ones (`clearCount`);
* **blocks** — a device read and written in blocks of a fixed size (`read`, `write`).

Each view comes with what a read sees after a write, at the same place and elsewhere.
-/

namespace QuackOS

/-- A buffer of bytes. -/
abbrev Buffer := ℕ → BitVec 8

namespace Buffer

/-! ## Fields -/

/-- The little-endian number in the `n` bytes from `off` on. -/
def getLe (b : Buffer) (off : ℕ) : ℕ → ℕ
  | 0 => 0
  | n + 1 => (b off).toNat + 256 * getLe b (off + 1) n

/-- Store a number in the `n` bytes from `off` on. -/
def putLe (b : Buffer) (off n v : ℕ) : Buffer :=
  fun k => if off ≤ k ∧ k < off + n then BitVec.ofNat 8 (v / 256 ^ (k - off)) else b k

theorem getLe_congr {b c : Buffer} {off n : ℕ} (h : ∀ k, off ≤ k → k < off + n → b k = c k) :
    getLe b off n = getLe c off n := by
  induction n generalizing off with
  | zero => rfl
  | succ n ih =>
    rw [getLe, getLe, h off (by omega) (by omega),
      ih fun k hk hk' => h k (by omega) (by omega)]

/-- Bytes that are the base-256 digits of a number read as that number. -/
theorem getLe_of_digits {b : Buffer} {off n v : ℕ}
    (h : ∀ i < n, b (off + i) = BitVec.ofNat 8 (v / 256 ^ i)) :
    getLe b off n = v % 256 ^ n := by
  induction n generalizing off v with
  | zero => simp [getLe, Nat.mod_one]
  | succ n ih =>
    have hrest : getLe b (off + 1) n = v / 256 % 256 ^ n := by
      apply ih
      intro i hi
      have hdigit := h (i + 1) (by omega)
      rw [show off + (i + 1) = off + 1 + i by omega] at hdigit
      rw [hdigit, pow_succ', Nat.div_div_eq_div_mul]
    have hfirst : (b off).toNat = v % 256 := by
      have := h 0 (by omega)
      simpa using congrArg BitVec.toNat this
    rw [getLe, hrest, hfirst, pow_succ', Nat.mod_mul]

/-- A field read back is the number stored, as far as it fits. -/
@[simp] theorem getLe_putLe (b : Buffer) (off n v : ℕ) :
    getLe (putLe b off n v) off n = v % 256 ^ n := by
  apply getLe_of_digits
  intro i hi
  simp [putLe, hi]

/-- A field is not disturbed by storing another one beside it. -/
theorem getLe_putLe_of_disjoint (b : Buffer) {off n off' n' : ℕ} (v : ℕ)
    (h : off + n ≤ off' ∨ off' + n' ≤ off) :
    getLe (putLe b off' n' v) off n = getLe b off n := by
  apply getLe_congr
  intro k hk hk'
  have : ¬ (off' ≤ k ∧ k < off' + n') := by omega
  simp [putLe, this]

/-! ## Bits -/

/-- Bit `n` of the bitmap a buffer holds. -/
def testBit (b : Buffer) (n : ℕ) : Bool := (b (n / 8)).getLsbD (n % 8)

/-- Set bit `n`. -/
def setBit (b : Buffer) (n : ℕ) : Buffer :=
  Function.update b (n / 8) (b (n / 8) ||| 1#8 <<< (n % 8))

/-- Clear bit `n`. -/
def clearBit (b : Buffer) (n : ℕ) : Buffer :=
  Function.update b (n / 8) (b (n / 8) &&& ~~~(1#8 <<< (n % 8)))

/-- Set the `count` bits from `start` on. -/
def setRange (b : Buffer) (start count : ℕ) : Buffer :=
  (List.range' start count).foldl setBit b

theorem getLsbD_one_shiftLeft {j k : ℕ} (hk : k < 8) :
    (1#8 <<< j).getLsbD k = decide (k = j) := by
  rw [BitVec.getLsbD_shiftLeft]
  rcases lt_trichotomy k j with h | h | h
  · simp [h, h.ne]
  · simp [h, h ▸ hk]
  · have h1 : ¬ k < j := by omega
    have h2 : k - j ≠ 0 := by omega
    simp [h1, h2, h.ne', hk, BitVec.getLsbD_one]

/-- Masking a byte with one bit tests that bit. -/
theorem and_one_shiftLeft_eq_zero_iff (x : BitVec 8) {j : ℕ} (hj : j < 8) :
    x &&& 1#8 <<< j = 0#8 ↔ x.getLsbD j = false := by
  constructor
  · intro h
    have := congrArg (fun y : BitVec 8 => y.getLsbD j) h
    simpa only [BitVec.getLsbD_and, getLsbD_one_shiftLeft hj, decide_true, Bool.and_true,
      BitVec.getLsbD_zero] using this
  · intro h
    refine BitVec.eq_of_getLsbD_eq fun k hk => ?_
    rw [BitVec.getLsbD_and, getLsbD_one_shiftLeft hk, BitVec.getLsbD_zero]
    by_cases hkj : k = j
    · simp [hkj, h]
    · simp [hkj]

@[simp] theorem testBit_setBit (b : Buffer) (n m : ℕ) :
    testBit (setBit b n) m = (decide (m = n) || testBit b m) := by
  unfold testBit setBit
  by_cases hbyte : m / 8 = n / 8
  · have hm : m % 8 < 8 := Nat.mod_lt _ (by omega)
    rw [hbyte, Function.update_self, BitVec.getLsbD_or, getLsbD_one_shiftLeft hm, Bool.or_comm]
    have : (m % 8 = n % 8) ↔ m = n := by omega
    simp [this]
  · have : m ≠ n := fun h => hbyte (by rw [h])
    rw [Function.update_of_ne hbyte]
    simp [this]

@[simp] theorem testBit_clearBit (b : Buffer) (n m : ℕ) :
    testBit (clearBit b n) m = (!decide (m = n) && testBit b m) := by
  unfold testBit clearBit
  by_cases hbyte : m / 8 = n / 8
  · have hm : m % 8 < 8 := Nat.mod_lt _ (by omega)
    rw [hbyte, Function.update_self, BitVec.getLsbD_and, BitVec.getLsbD_not,
      getLsbD_one_shiftLeft hm, Bool.and_comm]
    have : (m % 8 = n % 8) ↔ m = n := by omega
    simp [this, hm]
  · have : m ≠ n := fun h => hbyte (by rw [h])
    rw [Function.update_of_ne hbyte]
    simp [this]

/-- After setting a range, a bit is set when it lies in the range or was set before. -/
theorem testBit_setRange (b : Buffer) (start count m : ℕ) :
    testBit (setRange b start count) m =
      (decide (start ≤ m ∧ m < start + count) || testBit b m) := by
  induction count generalizing b start with
  | zero =>
    have : ¬ (start ≤ m ∧ m < start) := by omega
    simp [setRange, this]
  | succ count ih =>
    have hstep : setRange b start (count + 1) = setRange (setBit b start) (start + 1) count := rfl
    rw [hstep, ih, testBit_setBit, ← Bool.or_assoc, ← Bool.decide_or]
    congr 2
    rw [eq_iff_iff]
    omega

/-! ## Counting clear bits -/

/-- The number of clear bits among the first `n`. -/
def clearCount (b : Buffer) (n : ℕ) : ℕ := (List.range n).countP fun m => !testBit b m

theorem clearCount_le (b : Buffer) (n : ℕ) : clearCount b n ≤ n := by
  have := @List.countP_le_length _ (fun m => !testBit b m) (List.range n)
  rwa [List.length_range] at this

theorem clearCount_succ (b : Buffer) (n : ℕ) :
    clearCount b (n + 1) = clearCount b n + if testBit b n = false then 1 else 0 := by
  unfold clearCount
  rw [List.range_succ, List.countP_append]
  cases h : testBit b n <;> simp [h]

theorem clearCount_congr {b c : Buffer} {n : ℕ} (h : ∀ m < n, testBit b m = testBit c m) :
    clearCount b n = clearCount c n := by
  induction n with
  | zero => rfl
  | succ n ih =>
    rw [clearCount_succ, clearCount_succ, ih fun m hm => h m (by omega), h n (by omega)]

theorem exists_clear_of_clearCount {b : Buffer} {n : ℕ} (h : 0 < clearCount b n) :
    ∃ m < n, testBit b m = false := by
  obtain ⟨m, hm, hclear⟩ := List.countP_pos_iff.mp h
  exact ⟨m, List.mem_range.mp hm, by simpa using hclear⟩

/-- Setting a clear bit takes one off the count. -/
theorem clearCount_of_set {b c : Buffer} {n m : ℕ} (hm : m < n) (hclear : testBit b m = false)
    (hset : testBit c m = true) (hsame : ∀ k, k ≠ m → testBit c k = testBit b k) :
    clearCount c n + 1 = clearCount b n := by
  induction n with
  | zero => omega
  | succ n ih =>
    rw [clearCount_succ, clearCount_succ]
    by_cases hmn : m = n
    · subst hmn
      rw [clearCount_congr fun k hk => hsame k (by omega), hclear, hset]
      simp
    · have := ih (by omega)
      rw [hsame n fun h => hmn h.symm]
      omega

theorem clearCount_setBit {b : Buffer} {n m : ℕ} (hm : m < n) (hclear : testBit b m = false) :
    clearCount (setBit b m) n + 1 = clearCount b n := by
  refine clearCount_of_set hm hclear (by simp) fun k hk => ?_
  simp [hk]

theorem clearCount_clearBit {b : Buffer} {n m : ℕ} (hm : m < n) (hset : testBit b m = true) :
    clearCount (clearBit b m) n = clearCount b n + 1 := by
  refine (clearCount_of_set hm (by simp) hset fun k hk => ?_).symm
  simp [hk]

/-- Setting a run of clear bits takes its length off the count. -/
theorem clearCount_setRange {b : Buffer} {n start count : ℕ} (hn : start + count ≤ n)
    (hclear : ∀ m, start ≤ m → m < start + count → testBit b m = false) :
    clearCount (setRange b start count) n + count = clearCount b n := by
  induction count generalizing b start with
  | zero => rfl
  | succ count ih =>
    have hstep : setRange b start (count + 1) = setRange (setBit b start) (start + 1) count := rfl
    have hfirst := @clearCount_setBit b n start (by omega) (hclear start (by omega) (by omega))
    have hrest := @ih (setBit b start) (start + 1) (by omega) fun m h1 h2 => by
      have hne : m ≠ start := by omega
      simp [hne, hclear m (by omega) (by omega)]
    rw [hstep]
    omega

/-! ## Blocks -/

/-- Read `len` bytes at an address into a fresh buffer. -/
def read (d : Buffer) (off len : ℕ) : Buffer := fun i => if i < len then d (off + i) else 0

/-- Write the first `len` bytes of a buffer at an address. -/
def write (d : Buffer) (off : ℕ) (data : Buffer) (len : ℕ) : Buffer :=
  fun a => if off ≤ a ∧ a < off + len then data (a - off) else d a

/-- A block read back has the bytes written into it, and its old bytes after them. -/
theorem read_write_self (d data : Buffer) (b : ℕ) {bs n : ℕ} (hn : n ≤ bs) :
    read (write d (b * bs) data n) (b * bs) bs =
      fun i => if i < n then data i else read d (b * bs) bs i := by
  funext i
  by_cases hin : i < n
  · simp [read, write, hin, show i < bs by omega]
  · simp [read, write, hin]

/-- A block is not disturbed by writing into another one. -/
theorem read_write_of_ne (d data : Buffer) {b c bs n : ℕ} (hne : c ≠ b) (hn : n ≤ bs) :
    read (write d (b * bs) data n) (c * bs) bs = read d (c * bs) bs := by
  funext i
  by_cases hi : i < bs
  · have hout : ¬ (b * bs ≤ c * bs + i ∧ c * bs + i < b * bs + n) := by
      rintro ⟨h1, h2⟩
      rcases Nat.lt_or_gt_of_ne hne with h | h
      · have := Nat.mul_le_mul_right bs (show c + 1 ≤ b by omega)
        rw [Nat.add_mul] at this
        omega
      · have := Nat.mul_le_mul_right bs (show b + 1 ≤ c by omega)
        rw [Nat.add_mul] at this
        omega
    simp [read, write, hi, hout]
  · simp [read, hi]

end Buffer

end QuackOS
