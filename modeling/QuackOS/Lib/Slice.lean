import QuackOS.Lib.Bytes
import Mathlib.Data.List.DropRight
import Mathlib.Data.List.GetD
import Mathlib.Data.List.TakeWhile

/-!
# Byte slices

Fixed-size byte arrays that hand-written codecs fill piece by piece and take apart by slices:

* `blit`, `sliceFrom` — copying into a range and taking a tail, with the bounds checks that end
  in a panic;
* `leBytes`, `leWord` — little-endian words as bytes;
* `utf8`, `fromUtf8` — strings and the bytes they are made of;
* `untilNul`, `trimNul` — what stands before the first zero byte, and before the zeros at the
  end.
-/

namespace QuackOS.Slice

/-! ## Ranges -/

section Ranges

variable {α : Type*}

/-- Copy `bs` to the range of `buf` that starts at `off`; `none` when it does not fit. -/
def blit (buf : List α) (off : ℕ) (bs : List α) : Option (List α) :=
  if off + bs.length ≤ buf.length then
    some (buf.take off ++ bs ++ buf.drop (off + bs.length))
  else none

/-- The tail of `buf` from `off` on; `none` when `off` is past the end. -/
def sliceFrom (buf : List α) (off : ℕ) : Option (List α) :=
  if off ≤ buf.length then some (buf.drop off) else none

theorem length_blit {buf bs buf' : List α} {off : ℕ} (h : blit buf off bs = some buf') :
    buf'.length = buf.length := by
  unfold blit at h
  split at h
  · cases h
    simp only [List.length_append, List.length_take, List.length_drop]
    omega
  · cases h

/-- Copying to the place where the padding starts. -/
theorem blit_pad {pre bs : List α} {off k : ℕ} {z : α} (hoff : off = pre.length)
    (h : bs.length ≤ k) :
    blit (pre ++ List.replicate k z) off bs = some (pre ++ bs ++ List.replicate (k - bs.length) z) := by
  subst hoff
  unfold blit
  rw [if_pos (by simp only [List.length_append, List.length_replicate]; omega)]
  have htake : (pre ++ List.replicate k z).take pre.length = pre := List.take_left ..
  have hdrop : (pre ++ List.replicate k z).drop (pre.length + bs.length) =
      List.replicate (k - bs.length) z := by
    rw [List.drop_append, List.drop_of_length_le (by omega), List.nil_append,
      Nat.add_sub_cancel_left, List.drop_replicate]
  rw [htake, hdrop]

/-- Copying to the front of a range. -/
theorem blit_within {pre mid post bs : List α} (h : bs.length ≤ mid.length) :
    blit (pre ++ (mid ++ post)) pre.length bs =
      some (pre ++ ((bs ++ mid.drop bs.length) ++ post)) := by
  unfold blit
  rw [if_pos (by simp only [List.length_append]; omega), List.take_left, List.drop_append,
    List.drop_of_length_le (by omega), Nat.add_sub_cancel_left, List.nil_append, List.append_assoc,
    List.append_assoc, List.drop_append_of_le_length h]

theorem sliceFrom_append {pre post : List α} {off : ℕ} (h : off = pre.length) :
    sliceFrom (pre ++ post) off = some post := by
  subst h
  rw [sliceFrom, if_pos (by simp), List.drop_left]

theorem length_of_sliceFrom {buf post : List α} {off : ℕ} (h : sliceFrom buf off = some post) :
    off + post.length = buf.length := by
  unfold sliceFrom at h
  split at h
  · cases h
    rw [List.length_drop]
    omega
  · cases h

end Ranges

/-! ## Words -/

/-- The lowest `n` bytes of a word, lowest first. -/
def leBytes (n : ℕ) (w : BitVec 64) : List UInt8 :=
  (List.range n).map fun i => ⟨Bytes.byte w i⟩

/-- The word that some bytes make up, lowest first. -/
def leWord (bs : List UInt8) : BitVec 64 :=
  Bytes.ofBytes (fun i => (bs.getD i 0).toBitVec) bs.length

/-- The word in the `n` bytes from `off` on, and 0 when the range ends past the buffer. -/
def wordAt (buf : List UInt8) (off n : ℕ) : BitVec 64 :=
  if off + n ≤ buf.length then leWord ((buf.drop off).take n) else 0

@[simp] theorem length_leBytes (n : ℕ) (w : BitVec 64) : (leBytes n w).length = n := by
  simp [leBytes]

/-- A word that fits is read back from its bytes. -/
theorem leWord_leBytes {n : ℕ} {w : BitVec 64} (hw : w.toNat < 2 ^ (8 * n)) :
    leWord (leBytes n w) = w := by
  have hbytes : leWord (leBytes n w) = Bytes.ofBytes (Bytes.byte w) n := by
    rw [leWord, length_leBytes]
    refine Bytes.ofBytes_congr fun i hi => ?_
    rw [List.getD_eq_getElem _ _ (by simpa using hi)]
    simp [leBytes]
  rw [hbytes]
  refine BitVec.eq_of_getLsbD_eq fun k hk => ?_
  rw [Bytes.getLsbD_ofBytes _ _ _ hk, Bytes.byte, BitVec.getLsbD_extractLsb']
  have hmod : k % 8 < 8 := Nat.mod_lt k (by omega)
  have hk' : 8 * (k / 8) + k % 8 = k := by omega
  by_cases hlt : k / 8 < n
  · simp [hlt, hmod, hk']
  · have hbit : w.getLsbD k = false := by
      rw [BitVec.getLsbD, Nat.testBit_lt_two_pow]
      exact hw.trans_le (Nat.pow_le_pow_right (by omega) (by omega))
    simp [hlt, hbit]

/-- A word is read at the place where it was put. -/
theorem wordAt_append {pre post : List UInt8} {off n : ℕ} {w : BitVec 64} (hoff : off = pre.length)
    (hw : w.toNat < 2 ^ (8 * n)) :
    wordAt (pre ++ leBytes n w ++ post) off n = w := by
  subst hoff
  have hdrop : (pre ++ leBytes n w ++ post).drop pre.length = leBytes n w ++ post := by
    rw [List.append_assoc, List.drop_left]
  have htake : (leBytes n w ++ post).take n = leBytes n w := by
    rw [List.take_append_of_le_length (by simp), List.take_of_length_le (by simp)]
  rw [wordAt, if_pos (by simp), hdrop, htake, leWord_leBytes hw]

/-! ## Strings -/

/-- The bytes of a string. -/
def utf8 (s : String) : List UInt8 := s.toByteArray.data.toList

/-- The string that some bytes are the encoding of. -/
def fromUtf8 (bs : List UInt8) : Option String := String.fromUTF8? ⟨bs.toArray⟩

theorem fromUtf8_eq_some {bs : List UInt8} {s : String} : fromUtf8 bs = some s ↔ utf8 s = bs := by
  unfold fromUtf8 String.fromUTF8? utf8
  constructor
  · intro h
    split at h
    · cases h
      rfl
    · cases h
  · rintro rfl
    have hvalid : (⟨s.toByteArray.data.toList.toArray⟩ : ByteArray).IsValidUTF8 := s.isValidUTF8
    rw [dif_pos hvalid]
    rfl

theorem utf8_injective : Function.Injective utf8 := by
  intro s t h
  have hs : fromUtf8 (utf8 t) = some s := fromUtf8_eq_some.mpr h
  have ht : fromUtf8 (utf8 t) = some t := fromUtf8_eq_some.mpr rfl
  exact Option.some.inj (hs.symm.trans ht)

@[simp] theorem utf8_append (s t : String) : utf8 (s ++ t) = utf8 s ++ utf8 t := by
  simp [utf8]

theorem utf8_ofList_append (l m : List Char) :
    utf8 (String.ofList (l ++ m)) = utf8 (String.ofList l) ++ utf8 (String.ofList m) := by
  simp [utf8]

/-- A decoded string is no longer than the bytes, or than the default. -/
theorem length_fromUtf8_getD {bs : List UInt8} {d : String} :
    (utf8 ((fromUtf8 bs).getD d)).length ≤ max bs.length (utf8 d).length := by
  cases h : fromUtf8 bs with
  | none => exact le_max_right ..
  | some s =>
    rw [Option.getD_some, fromUtf8_eq_some.mp h]
    exact le_max_left ..

/-- The bytes before the first zero byte. -/
def untilNul (bs : List UInt8) : List UInt8 := bs.takeWhile (· != 0)

theorem length_untilNul_le (bs : List UInt8) : (untilNul bs).length ≤ bs.length :=
  (List.takeWhile_prefix _).length_le

theorem zero_not_mem_untilNul (bs : List UInt8) : (0 : UInt8) ∉ untilNul bs := by
  intro h
  have := List.mem_takeWhile_imp h
  simp at this

theorem untilNul_append {bs : List UInt8} (h : (0 : UInt8) ∉ bs) (rest : List UInt8) :
    untilNul (bs ++ rest) = bs ++ untilNul rest := by
  have hall : ∀ b ∈ bs, (b != 0) = true := by
    intro b hb
    rw [bne_iff_ne]
    rintro rfl
    exact h hb
  exact List.takeWhile_append_of_pos hall

/-- A string ends at its NUL. -/
theorem untilNul_append_nul {bs : List UInt8} (h : (0 : UInt8) ∉ bs) (rest : List UInt8) :
    untilNul (bs ++ 0 :: rest) = bs := by
  rw [untilNul_append h, untilNul, List.takeWhile_cons_of_neg (by decide), List.append_nil]

/-- A string without a NUL behind it. -/
theorem untilNul_eq_self {bs : List UInt8} (h : (0 : UInt8) ∉ bs) : untilNul bs = bs := by
  have happend := untilNul_append h []
  rwa [List.append_nil, show untilNul [] = [] from rfl, List.append_nil] at happend

/-- Zero padding is not part of a string without zero bytes. -/
theorem untilNul_pad {bs : List UInt8} {k : ℕ} (h : (0 : UInt8) ∉ bs) :
    untilNul (bs ++ List.replicate k 0) = bs := by
  cases k with
  | zero => rw [List.replicate_zero, List.append_nil, untilNul_eq_self h]
  | succ k => rw [List.replicate_succ, untilNul_append_nul h]

/-- A string without the NUL characters at its end. -/
def trimNul (s : String) : String := String.ofList (s.toList.rdropWhile (· == '\x00'))

theorem utf8_ofList_toList (s : String) : utf8 (String.ofList s.toList) = utf8 s := by
  rw [String.ofList_toList]

theorem length_trimNul_le (s : String) : (utf8 (trimNul s)).length ≤ (utf8 s).length := by
  obtain ⟨r, hr⟩ := List.rdropWhile_prefix (· == '\x00') s.toList
  rw [← utf8_ofList_toList s, ← hr, utf8_ofList_append, List.length_append]
  exact Nat.le_add_right ..

theorem utf8_ofList_nul (k : ℕ) :
    utf8 (String.ofList (List.replicate k '\x00')) = List.replicate k 0 := by
  induction k with
  | zero => rfl
  | succ k ih =>
    have hone : utf8 (String.ofList ['\x00']) = [0] := by decide
    rw [List.replicate_succ', utf8_ofList_append, ih, hone, ← List.replicate_succ']

/-- The byte of a NUL character is zero. -/
theorem zero_mem_utf8 {s : String} (h : '\x00' ∈ s.toList) : (0 : UInt8) ∈ utf8 s := by
  obtain ⟨a, b, hab⟩ := List.append_of_mem h
  rw [← utf8_ofList_toList s, hab, utf8_ofList_append,
    show '\x00' :: b = ['\x00'] ++ b from rfl, utf8_ofList_append]
  have hone : utf8 (String.ofList ['\x00']) = [0] := by decide
  simp [hone]

/-- Zero padding is trimmed from a string without zero bytes. -/
theorem trimNul_fromUtf8_pad {s d : String} {k : ℕ} (h : (0 : UInt8) ∉ utf8 s) :
    trimNul ((fromUtf8 (utf8 s ++ List.replicate k 0)).getD d) = s := by
  have hdrop : (s.toList ++ List.replicate k '\x00').rdropWhile (· == '\x00') = s.toList := by
    induction k with
    | zero =>
      rw [List.replicate_zero, List.append_nil, List.rdropWhile_eq_self_iff]
      intro hne hlast
      apply h
      apply zero_mem_utf8
      rw [← beq_iff_eq.mp hlast]
      exact List.getLast_mem hne
    | succ k ih =>
      rw [List.replicate_succ', ← List.append_assoc, List.rdropWhile_concat_pos _ _ _ (by decide)]
      exact ih
  have hfrom : fromUtf8 (utf8 s ++ List.replicate k 0) =
      some (s ++ String.ofList (List.replicate k '\x00')) := by
    rw [fromUtf8_eq_some, utf8_append, utf8_ofList_nul]
  rw [hfrom, Option.getD_some, trimNul, String.toList_append, String.toList_ofList, hdrop,
    String.ofList_toList]

end QuackOS.Slice
