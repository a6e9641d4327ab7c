import QuackOS.Mm.Frames

/-!
# Page-table descriptors

`PTEFlags` and `PageTableEntry` of `page_table.rs`: logical permissions, the 64-bit descriptor
they are encoded into, and the decoding.

* `new_eq_or` — a leaf descriptor is an output address and attribute bits that do not overlap;
* `child_newTable`, `ppn_new` — what is read back from a descriptor;
* `new_flags` — **decoding a user leaf and encoding it again changes only the address**.
-/

namespace QuackOS.Mm

/-! ## Logical flags -/

/-- `PTEFlags`. -/
structure PTEFlags where
  bits : BitVec 16
  deriving DecidableEq

namespace PTEFlags

def V : BitVec 16 := 1 <<< 0
def R : BitVec 16 := 1 <<< 1
def W : BitVec 16 := 1 <<< 2
def X : BitVec 16 := 1 <<< 3
def U : BitVec 16 := 1 <<< 4
def G : BitVec 16 := 1 <<< 5
def A : BitVec 16 := 1 <<< 6
def D : BitVec 16 := 1 <<< 7

def empty : PTEFlags := ⟨0⟩

def contains (f : PTEFlags) (flag : BitVec 16) : Bool := f.bits &&& flag != 0

def insert (f : PTEFlags) (flag : BitVec 16) : PTEFlags := ⟨f.bits ||| flag⟩

end PTEFlags

/-! ## Descriptors -/

namespace Pte

def descTable : Word := 0b11
def descPage : Word := 0b11
def mairNormalWb : Word := 2 <<< 2
def apEl1RwEl0No : Word := 0b00 <<< 6
def apEl0RwEl1Rw : Word := 0b01 <<< 6
def apEl0RoEl1Ro : Word := 0b11 <<< 6
def shInnerShareable : Word := 0b11 <<< 8
def af : Word := 1 <<< 10
def ng : Word := 1 <<< 11
def uxn : Word := 1 <<< 54
def pxn : Word := 1 <<< 53

/-- `PageTableEntry::contains`. -/
def contains (w field : Word) : Bool := w &&& field != 0

/-- `is_valid`. -/
def isValid (w : Word) : Bool := w &&& 1 != 0

/-- `is_table`. -/
def isTable (w : Word) : Bool := w &&& 0b11 == descTable

/-- `ppn`: the page number in the output address field. -/
def ppn (w : Word) : ℕ := (w >>> 12 &&& 0xfffffffff).toNat

/-- `PageTableEntry::new_table`. -/
def newTable (next : ℕ) : Word := BitVec.ofNat 64 next <<< 12 ||| descTable

/-- `PageTableEntry::new`. -/
def new (ppn : ℕ) (flags : PTEFlags) : Word :=
  let desc := BitVec.ofNat 64 ppn <<< 12 ||| descPage
  let desc := desc ||| af ||| mairNormalWb ||| shInnerShareable
  let desc :=
    if flags.contains PTEFlags.U then
      (if flags.contains PTEFlags.W then desc ||| apEl0RwEl1Rw
       else if flags.contains PTEFlags.R then desc ||| apEl0RoEl1Ro
       else desc ||| apEl1RwEl0No) ||| ng
    else desc ||| apEl1RwEl0No
  if flags.contains PTEFlags.X then desc else desc ||| (uxn ||| pxn)

/-- `PageTableEntry::flags`. -/
def flags (w : Word) : PTEFlags :=
  let f := PTEFlags.empty
  let f := if isValid w then f.insert PTEFlags.V else f
  let ap := w >>> 6 &&& 0b11
  let f :=
    if ap = 0b00 then (f.insert PTEFlags.R).insert PTEFlags.W
    else if ap = 0b01 then ((f.insert PTEFlags.R).insert PTEFlags.W).insert PTEFlags.U
    else if ap = 0b10 then f.insert PTEFlags.R
    else (f.insert PTEFlags.R).insert PTEFlags.U
  let f := if !contains w uxn || !contains w pxn then f.insert PTEFlags.X else f
  let f := if !contains w ng then f.insert PTEFlags.G else f
  let f := if contains w af then f.insert PTEFlags.A else f
  f.insert PTEFlags.D

/-- The table a descriptor of a level above the last points to. -/
def child (w : Word) : Option ℕ := if isTable w then some (ppn w) else none

/-- `EL0_BIT`: AP[1]. -/
def el0Bit : Word := 1 <<< 6

end Pte

/-! ## Reading a descriptor back -/

namespace Pte

variable {f : ℕ} {w : Word} {fl : PTEFlags}

/-- The output address field. -/
def addrMask : Word := 0x0000fffffffff000

theorem getLsbD_addrMask {i : ℕ} (hi : i < 64) :
    addrMask.getLsbD i = decide (12 ≤ i ∧ i < 48) := by
  have : ∀ j : Fin 64, addrMask.getLsbD j = decide (12 ≤ (j : ℕ) ∧ (j : ℕ) < 48) := by decide
  exact this ⟨i, hi⟩

/-- The page number of a frame fills the address field only. -/
theorem shiftLeft_and_eq_zero (hf : f < 2 ^ 36) {c : Word} (hc : c &&& addrMask = 0) :
    BitVec.ofNat 64 f <<< 12 &&& c = 0 := by
  apply BitVec.eq_of_getLsbD_eq
  intro i hi
  have hbit : c.getLsbD i = true → ¬ (12 ≤ i ∧ i < 48) := by
    intro h hr
    have := congrArg (fun x => x.getLsbD i) hc
    simp [getLsbD_addrMask hi, h, hr] at this
  have hlow : 36 ≤ i - 12 → f.testBit (i - 12) = false := fun h =>
    Nat.testBit_lt_two_pow (hf.trans_le (Nat.pow_le_pow_right (by omega) h))
  rw [BitVec.getLsbD_and, BitVec.getLsbD_shiftLeft, BitVec.getLsbD_ofNat]
  by_cases h12 : i < 12
  · simp [h12]
  by_cases h48 : i < 48
  · have : c.getLsbD i = false := by
      cases hb : c.getLsbD i with
      | false => rfl
      | true => exact absurd ⟨by omega, h48⟩ (hbit hb)
    simp [this]
  · simp [hlow (by omega)]

/-- An address combined with attribute bits reads back as that address. -/
theorem ppn_or (hf : f < 2 ^ 36) (hw : w &&& addrMask = 0) :
    ppn (BitVec.ofNat 64 f <<< 12 ||| w) = f := by
  have hmask : ∀ x : Word, x >>> 12 &&& (0xfffffffff : Word) = (x &&& addrMask) >>> 12 := by
    intro x
    rw [BitVec.ushiftRight_and_distrib]
    rfl
  have hand : (BitVec.ofNat 64 f <<< 12 ||| w) &&& addrMask = BitVec.ofNat 64 f <<< 12 := by
    rw [BitVec.and_comm, BitVec.and_or_distrib_left, BitVec.and_comm addrMask w, hw]
    have hcompl := shiftLeft_and_eq_zero hf (c := ~~~addrMask) (by decide)
    have hsplit : BitVec.ofNat 64 f <<< 12 &&& addrMask = BitVec.ofNat 64 f <<< 12 := by
      apply BitVec.eq_of_getLsbD_eq
      intro i hi
      have := congrArg (fun x => x.getLsbD i) hcompl
      simp only [BitVec.getLsbD_and, BitVec.getLsbD_not] at this ⊢
      cases hb : (BitVec.ofNat 64 f <<< 12).getLsbD i <;> simp_all
    rw [BitVec.and_comm addrMask, hsplit]
    simp
  rw [ppn, hmask, hand, BitVec.toNat_ushiftRight, BitVec.toNat_shiftLeft, BitVec.toNat_ofNat]
  rw [Nat.mod_eq_of_lt (a := f) (by omega), Nat.shiftLeft_eq, Nat.mod_eq_of_lt (by omega),
    Nat.shiftRight_eq_div_pow]
  omega

theorem and_or_attrs (hf : f < 2 ^ 36) {c : Word} (hc : c &&& addrMask = 0) :
    (BitVec.ofNat 64 f <<< 12 ||| w) &&& c = w &&& c := by
  rw [BitVec.and_comm, BitVec.and_or_distrib_left, BitVec.and_comm c, shiftLeft_and_eq_zero hf hc,
    BitVec.and_comm c]
  simp

theorem ppn_newTable (hf : f < 2 ^ 36) : ppn (newTable f) = f := ppn_or hf (by decide)

theorem isTable_newTable (hf : f < 2 ^ 36) : isTable (newTable f) = true := by
  rw [isTable, newTable, and_or_attrs hf (by decide)]
  decide

theorem child_newTable (hf : f < 2 ^ 36) : child (newTable f) = some f := by
  rw [child, isTable_newTable hf, if_pos rfl, ppn_newTable hf]

@[simp] theorem child_zero : child 0#64 = none := by decide

theorem isValid_of_isTable (h : isTable w = true) : isValid w = true := by
  have h3 : w &&& 0b11 = 0b11 := by simpa [isTable, descTable] using h
  have h1 : w &&& 1 = 1 := by
    rw [show (1 : Word) = 0b11 &&& 1 by decide, ← BitVec.and_assoc, h3]
  rw [isValid, h1]
  rfl

theorem and_bit_eq_zero {k : ℕ} (hk : k < 64) :
    w &&& 1#64 <<< k = 0 ↔ w.getLsbD k = false := by
  constructor
  · intro h
    have := congrArg (fun x => x.getLsbD k) h
    simpa [hk] using this
  · intro h
    apply BitVec.eq_of_getLsbD_eq
    intro i hi
    rw [BitVec.getLsbD_and, BitVec.getLsbD_shiftLeft]
    by_cases hik : i = k
    · subst hik
      simp [h]
    · by_cases hlt : i < k
      · simp [hlt]
      · have : ¬ (i - k = 0) := by omega
        simp [this]

/-- The type field is decided by the two lowest bits. -/
theorem and_three : w &&& 0b11 =
    (if w &&& 1 = 0 then 0 else 1) ||| (if w &&& 0b10 = 0 then 0 else 0b10) := by
  have h0 : w &&& 1 = 0 ↔ w.getLsbD 0 = false := and_bit_eq_zero (k := 0) (by omega)
  have h1 : w &&& 0b10 = 0 ↔ w.getLsbD 1 = false := and_bit_eq_zero (k := 1) (by omega)
  simp only [h0, h1]
  apply BitVec.eq_of_getLsbD_eq
  intro i hi
  have hhigh : ∀ n : ℕ, n < 4 → 2 ≤ i → (BitVec.ofNat 64 n).getLsbD i = false := by
    intro n hn h2
    have hlt : n < 2 ^ i := hn.trans_le (Nat.pow_le_pow_right (n := 2) (i := 2) (by omega) h2)
    rw [BitVec.getLsbD_ofNat, Nat.testBit_lt_two_pow hlt, Bool.and_false]
  rw [BitVec.getLsbD_and, BitVec.getLsbD_or]
  by_cases h2 : 2 ≤ i
  · have e3 : (0b11 : Word).getLsbD i = false := hhigh 3 (by omega) h2
    have e0 : (0 : Word).getLsbD i = false := hhigh 0 (by omega) h2
    have e1 : (1 : Word).getLsbD i = false := hhigh 1 (by omega) h2
    have e2 : (0b10 : Word).getLsbD i = false := hhigh 2 (by omega) h2
    rw [e3, Bool.and_false]
    split <;> split <;> simp only [e0, e1, e2, Bool.or_false]
  · have hcases : i = 0 ∨ i = 1 := by omega
    rcases hcases with rfl | rfl
    · cases hb : w.getLsbD 0 <;> cases w.getLsbD 1 <;> rfl
    · cases hb : w.getLsbD 1 <;> cases w.getLsbD 0 <;> rfl

/-- A table descriptor has both type bits set. -/
theorem isTable_iff : isTable w = true ↔ w &&& 1 ≠ 0 ∧ w &&& 0b10 ≠ 0 := by
  rw [isTable, and_three]
  by_cases h0 : w &&& 1 = 0 <;> by_cases h1 : w &&& 0b10 = 0 <;>
    simp only [h0, h1, ne_eq, not_true_eq_false, not_false_eq_true, and_true, and_false,
      and_self, if_true, if_false] <;> decide

/-- A block descriptor has the first type bit set only. -/
theorem and_three_of_block (h0 : w &&& 1 ≠ 0) (h1 : w &&& 0b10 = 0) : w &&& 0b11 = 0b01 := by
  rw [and_three, if_neg h0, if_pos h1]
  rfl

theorem isTable_eq_false (h : w &&& 1 = 0 ∨ w &&& 0b10 = 0) : isTable w = false := by
  cases ht : isTable w with
  | false => rfl
  | true =>
    obtain ⟨ha, hb⟩ := isTable_iff.mp ht
    rcases h with h | h
    · exact absurd h ha
    · exact absurd h hb

theorem child_eq_none (h : isTable w = false) : child w = none := by simp [child, h]

theorem child_of_isTable (h : isTable w = true) : child w = some (ppn w) := by simp [child, h]

theorem ppn_of_child {m : ℕ} (h : child w = some m) : ppn w = m := by
  unfold child at h
  split at h
  · exact Option.some.inj h
  · cases h

/-- The test that makes `find_pte_create` allocate. -/
theorem not_table_iff : (!isValid w || !isTable w) = true ↔ child w = none := by
  unfold child
  cases ht : isTable w with
  | true => simp [isValid_of_isTable ht]
  | false => simp

theorem table_of_child {m : ℕ} (h : child w = some m) : ¬ (!isValid w || !isTable w) = true := by
  rw [not_table_iff, h]
  exact Option.some_ne_none m

/-! ## Leaf descriptors -/

/-- The attribute bits of a leaf. -/
def attrs (fl : PTEFlags) : Word := new 0 fl

theorem new_eq_or (f : ℕ) (fl : PTEFlags) : new f fl = BitVec.ofNat 64 f <<< 12 ||| attrs fl := by
  unfold attrs new
  split_ifs <;> simp [BitVec.or_assoc]

/-- What the four permissions decide about the attribute bits. -/
theorem attrs_cases (fl : PTEFlags) (P : Word → Prop)
    (h : ∀ u r x b : Bool, P (new 0 ⟨(if u then PTEFlags.U else 0) ||| (if r then PTEFlags.R else 0)
      ||| (if b then PTEFlags.W else 0) ||| (if x then PTEFlags.X else 0)⟩)) : P (attrs fl) := by
  have key : attrs fl = new 0 ⟨(if fl.contains PTEFlags.U then PTEFlags.U else 0)
      ||| (if fl.contains PTEFlags.R then PTEFlags.R else 0)
      ||| (if fl.contains PTEFlags.W then PTEFlags.W else 0)
      ||| (if fl.contains PTEFlags.X then PTEFlags.X else 0)⟩ := by
    unfold attrs new
    cases fl.contains PTEFlags.U <;> cases fl.contains PTEFlags.R <;>
      cases fl.contains PTEFlags.W <;> cases fl.contains PTEFlags.X <;> rfl
  rw [key]
  exact h _ _ _ _

theorem attrs_and_addrMask (fl : PTEFlags) : attrs fl &&& addrMask = 0 :=
  attrs_cases fl (fun a => a &&& addrMask = 0) (by decide)

theorem ppn_new (hf : f < 2 ^ 36) : ppn (new f fl) = f := by
  rw [new_eq_or, ppn_or hf (attrs_and_addrMask fl)]

theorem new_and (hf : f < 2 ^ 36) {c : Word} (hc : c &&& addrMask = 0) :
    new f fl &&& c = attrs fl &&& c := by
  rw [new_eq_or, and_or_attrs hf hc]

/-- Decoding looks at attribute bits only. -/
theorem flags_new (hf : f < 2 ^ 36) : flags (new f fl) = flags (attrs fl) := by
  have hand : ∀ c : Word, c &&& addrMask = 0 → new f fl &&& c = attrs fl &&& c := fun c hc =>
    new_and hf hc
  have hap : new f fl >>> 6 &&& (0b11 : Word) = attrs fl >>> 6 &&& (0b11 : Word) := by
    have hshift : ∀ w : Word, w >>> 6 &&& (0b11 : Word) = (w &&& (0b11 : Word) <<< 6) >>> 6 := by
      intro w
      rw [BitVec.ushiftRight_and_distrib]
      rfl
    rw [hshift, hshift, hand _ (by decide)]
  have hv : isValid (new f fl) = isValid (attrs fl) := by
    rw [isValid, hand 1 (by decide), isValid]
  have hc : ∀ c : Word, c &&& addrMask = 0 → contains (new f fl) c = contains (attrs fl) c := by
    intro c h
    rw [contains, hand c h, contains]
  unfold flags
  rw [hv, hap, hc uxn (by decide), hc pxn (by decide), hc ng (by decide), hc af (by decide)]

/-- **Decoding a user leaf and encoding it again for another frame changes only the
address.** -/
theorem new_flags {g : ℕ} (hf : f < 2 ^ 36) (hu : new f fl &&& el0Bit ≠ 0) :
    new g (flags (new f fl)) = new g fl := by
  rw [new_and hf (by decide)] at hu
  have key : attrs fl &&& el0Bit ≠ 0 → attrs (flags (attrs fl)) = attrs fl :=
    attrs_cases fl (fun a => a &&& el0Bit ≠ 0 → attrs (flags a) = a) (by decide +kernel)
  rw [new_eq_or, new_eq_or g fl, flags_new hf, key hu]

end Pte

end QuackOS.Mm
