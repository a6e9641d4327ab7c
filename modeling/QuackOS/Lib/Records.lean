import QuackOS.Lib.Buffer

/-!
# Records in a buffer

A record of fixed layout is a sequence of fields without gaps, each of a whole number of
bytes, stored lowest byte first.

* `putFields`, `getFields` — lay the fields of a record into a buffer, and take fields of
  given widths out of one;
* `getFields_putFields` — a record taken out is the record laid in;
* `putFields_outside`, `getFields_congr` — a record touches, and depends on, its own bytes
  only.
-/

namespace QuackOS

/-- A field of a record: its width in bytes and its value, which fits. -/
abbrev Field := (w : ℕ) × BitVec (8 * w)

namespace Buffer

/-- The number of bytes of a record. -/
def fieldsWidth (fields : List Field) : ℕ := (fields.map Sigma.fst).sum

@[simp] theorem fieldsWidth_nil : fieldsWidth [] = 0 := rfl

@[simp] theorem fieldsWidth_cons (f : Field) (fields : List Field) :
    fieldsWidth (f :: fields) = f.1 + fieldsWidth fields := by
  simp [fieldsWidth]

/-- Lay the fields of a record one after another from `off` on. -/
def putFields (b : Buffer) (off : ℕ) : List Field → Buffer
  | [] => b
  | f :: fields => putFields (putLe b off f.1 f.2.toNat) (off + f.1) fields

/-- Take fields of the given widths one after another from `off` on. -/
def getFields (b : Buffer) (off : ℕ) : List ℕ → List Field
  | [] => []
  | w :: ws => ⟨w, BitVec.ofNat (8 * w) (getLe b off w)⟩ :: getFields b (off + w) ws

variable {b c : Buffer} {off k : ℕ}

theorem putLe_outside {n v : ℕ} (h : k < off ∨ off + n ≤ k) : putLe b off n v k = b k := by
  have : ¬ (off ≤ k ∧ k < off + n) := by omega
  simp [putLe, this]

/-- The bytes beside a record are not touched. -/
theorem putFields_outside {fields : List Field} (h : k < off ∨ off + fieldsWidth fields ≤ k) :
    putFields b off fields k = b k := by
  induction fields generalizing b off with
  | nil => rfl
  | cons f fields ih =>
    rw [fieldsWidth_cons] at h
    rw [putFields, ih (by omega), putLe_outside (by omega)]

/-- A number depends on its bytes, wherever they are. -/
theorem getLe_shift {off' n : ℕ} (h : ∀ k < n, b (off + k) = c (off' + k)) :
    getLe b off n = getLe c off' n := by
  induction n generalizing off off' with
  | zero => rfl
  | succ n ih =>
    have hrest : getLe b (off + 1) n = getLe c (off' + 1) n := by
      apply ih
      intro k hk
      have := h (k + 1) (by omega)
      rwa [show off + (k + 1) = off + 1 + k by omega,
        show off' + (k + 1) = off' + 1 + k by omega] at this
    have hfirst := h 0 (by omega)
    rw [Nat.add_zero, Nat.add_zero] at hfirst
    rw [getLe, getLe, hrest, hfirst]

/-- What is taken out depends on the bytes of the record, wherever they are. -/
theorem getFields_congr {off' : ℕ} {ws : List ℕ}
    (h : ∀ k < ws.sum, b (off + k) = c (off' + k)) : getFields b off ws = getFields c off' ws := by
  induction ws generalizing off off' with
  | nil => rfl
  | cons w ws ih =>
    rw [List.sum_cons] at h
    have hrest : getFields b (off + w) ws = getFields c (off' + w) ws := by
      apply ih
      intro k hk
      have := h (w + k) (by omega)
      rwa [← Nat.add_assoc, ← Nat.add_assoc] at this
    rw [getFields, getFields, getLe_shift fun k hk => h k (by omega), hrest]

/-- The number in some bytes is below the base for all of them. -/
theorem getLe_lt (b : Buffer) (off n : ℕ) : getLe b off n < 256 ^ n := by
  induction n generalizing off with
  | zero => simp [getLe]
  | succ n ih =>
    have hbyte := (b off).isLt
    have hrest := ih (off + 1)
    rw [getLe, pow_succ']
    omega

/-- The base-256 digits of the number in some bytes are the bytes. -/
theorem digit_getLe (b : Buffer) {off n i : ℕ} (hi : i < n) :
    BitVec.ofNat 8 (getLe b off n / 256 ^ i) = b (off + i) := by
  induction n generalizing off i with
  | zero => exact absurd hi (Nat.not_lt_zero i)
  | succ n ih =>
    rw [getLe]
    cases i with
    | zero =>
      refine BitVec.eq_of_toNat_eq ?_
      rw [pow_zero, Nat.div_one, BitVec.toNat_ofNat, Nat.add_mul_mod_self_left,
        Nat.mod_eq_of_lt (b off).isLt]
      rfl
    | succ i =>
      have hrest : ((b off).toNat + 256 * getLe b (off + 1) n) / 256 = getLe b (off + 1) n := by
        have hbyte := (b off).isLt
        omega
      rw [pow_succ', ← Nat.div_div_eq_div_mul, hrest, ih (Nat.lt_of_succ_lt_succ hi),
        show off + (i + 1) = off + 1 + i by omega]

/-- The number in some bytes, from its low and its high ones. -/
theorem getLe_add (b : Buffer) (off m n : ℕ) :
    getLe b off (m + n) = getLe b off m + 256 ^ m * getLe b (off + m) n := by
  induction m generalizing off with
  | zero => simp [getLe]
  | succ m ih =>
    rw [show m + 1 + n = m + n + 1 by omega, getLe, getLe, ih,
      show off + 1 + m = off + (m + 1) by omega, pow_succ']
    ring

/-- A field read back has its value. -/
theorem ofNat_getLe_putLe (b : Buffer) (off : ℕ) (f : Field) :
    BitVec.ofNat (8 * f.1) (getLe (putLe b off f.1 f.2.toNat) off f.1) = f.2 := by
  have hfits : f.2.toNat < 256 ^ f.1 := by
    have := f.2.isLt
    rwa [pow_mul] at this
  rw [getLe_putLe, Nat.mod_eq_of_lt hfits, BitVec.ofNat_toNat, BitVec.setWidth_eq]

/-- A record taken out is the record laid in. -/
theorem getFields_putFields (b : Buffer) (off : ℕ) (fields : List Field) :
    getFields (putFields b off fields) off (fields.map Sigma.fst) = fields := by
  induction fields generalizing b off with
  | nil => rfl
  | cons f fields ih =>
    have hhead : getLe (putFields (putLe b off f.1 f.2.toNat) (off + f.1) fields) off f.1 =
        getLe (putLe b off f.1 f.2.toNat) off f.1 :=
      getLe_congr fun k _ hk => putFields_outside (.inl hk)
    rw [putFields, List.map_cons, getFields, ih, hhead, ofNat_getLe_putLe]

end Buffer

end QuackOS
