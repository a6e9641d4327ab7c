import QuackOS.Ext4.Dir

/-!
# Names and their bytes

Directory records hold names as bytes, and the scans compare them as text: a name read from a
record goes through `from_utf8_lossy`.  The bytes of a name come back as that name, so a record
written for a name is found under it.

* `lossyLoop_char` — one character in front of some bytes;
* `fromUtf8Lossy_nameBytes` — the bytes of a name decode to the name.
-/

namespace QuackOS.Ext4

variable {fuel n : ℕ} {b : BitVec 8} {cs rest : List (BitVec 8)}

/-- Whether the byte at this place goes on a sequence that starts with `first`. -/
def continues (first i : ℕ) (b : BitVec 8) : Prop :=
  (if i = 0 then secondRange first else (0x80, 0xBF)).1 ≤ b.toNat ∧
    b.toNat ≤ (if i = 0 then secondRange first else (0x80, 0xBF)).2

/-- All the bytes of a sequence are counted, whatever follows. -/
theorem continued_append (hlen : cs.length = n)
    (hcs : ∀ p ∈ cs.zipIdx, continues b.toNat p.2 p.1) :
    continued b.toNat (n + 1) (cs ++ rest) = n := by
  have htake : (cs ++ rest).take (n + 1 - 1) = cs := by
    rw [Nat.add_sub_cancel, ← hlen, List.take_left]
  have hall : ∀ p ∈ cs.zipIdx, decide
      ((if p.2 = 0 then secondRange b.toNat else (0x80, 0xBF)).1 ≤ p.1.toNat ∧
        p.1.toNat ≤ (if p.2 = 0 then secondRange b.toNat else (0x80, 0xBF)).2) = true :=
    fun p hp => decide_eq_true (hcs p hp)
  unfold continued
  dsimp only
  rw [htake, List.takeWhile_eq_self_iff.mpr hall, List.length_zipIdx, hlen]

/-- One sequence in front of some bytes. -/
theorem lossyLoop_seq (hw : utf8Width b.toNat = n + 1) (hlen : cs.length = n)
    (hcs : ∀ p ∈ cs.zipIdx, continues b.toNat p.2 p.1) :
    lossyLoop (fuel + 1) (b :: (cs ++ rest)) =
      decodeSeq b.toNat (n + 1) cs :: lossyLoop fuel rest := by
  rw [lossyLoop, hw, continued_append hlen hcs, if_pos rfl, ← hlen, List.take_left,
    List.drop_left]

theorem toNat_byte {v : ℕ} (hv : v < 256) : (UInt8.ofNat v).toBitVec.toNat = v := by
  rw [UInt8.toNat_toBitVec, UInt8.toNat_ofNat', Nat.mod_eq_of_lt hv]

/-- The bytes behind the first of a character. -/
def follow (v : ℕ) : BitVec 8 := (UInt8.ofNat (v + 128)).toBitVec

theorem toNat_follow {v : ℕ} (hv : v < 64) : (follow v).toNat = v + 128 := toNat_byte (by omega)

/-- One character in front of some bytes. -/
theorem lossyLoop_char (c : Char) : lossyLoop (fuel + 1)
    ((String.utf8EncodeChar c).map UInt8.toBitVec ++ rest) = c :: lossyLoop fuel rest := by
  have hc : Char.ofNat c.val.toNat = c := Char.ofNat_toNat c
  have hvalid : c.val.toNat < 0xD800 ∨ 0xDFFF < c.val.toNat ∧ c.val.toNat < 0x110000 := c.valid
  unfold String.utf8EncodeChar
  dsimp only
  generalize c.val.toNat = v at hc hvalid ⊢
  split
  · have hb : (UInt8.ofNat v).toBitVec.toNat = v := toNat_byte (by omega)
    have hseq := @lossyLoop_seq fuel 0 (UInt8.ofNat v).toBitVec [] rest
      (by rw [hb, utf8Width, if_pos (by omega)]) rfl (by simp)
    rw [List.map_cons, List.map_nil, List.cons_append, hseq, hb, decodeSeq, if_pos rfl]
    simp [hc]
  · split
    · -- `v` in digits of six bits
      obtain ⟨x, z, hx, hz, hv⟩ : ∃ x z, x < 32 ∧ z < 64 ∧ v = 64 * x + z :=
        ⟨v / 64, v % 64, by omega, by omega, by omega⟩
      rw [show v / 64 % 32 = x by omega, show v % 64 = z by omega]
      have hb : (UInt8.ofNat (x + 192)).toBitVec.toNat = x + 192 := toNat_byte (by omega)
      have hseq := @lossyLoop_seq fuel 1 _ [follow z] rest
        (by rw [hb, utf8Width, if_neg (by omega), if_pos (by omega)]) rfl (by
          simp only [List.zipIdx_cons, List.zipIdx_nil, List.forall_mem_singleton, continues, hb,
            toNat_follow hz, if_true, secondRange]
          split_ifs <;> dsimp only <;> omega)
      have hval : decodeSeq (x + 192) 2 [follow z] = c := by
        simp only [decodeSeq, List.foldl_cons, List.foldl_nil, toNat_follow hz]
        rw [if_neg (by decide), ← hc]
        exact congrArg Char.ofNat (by omega)
      rw [hb, hval] at hseq
      exact hseq
    · split
      · obtain ⟨x, y, z, hx, hy, hz, hv⟩ :
            ∃ x y z, x < 16 ∧ y < 64 ∧ z < 64 ∧ v = 4096 * x + 64 * y + z :=
          ⟨v / 4096, v / 64 % 64, v % 64, by omega, by omega, by omega, by omega⟩
        rw [show v / 4096 % 16 = x by omega, show v / 64 % 64 = y by omega,
          show v % 64 = z by omega]
        have hb : (UInt8.ofNat (x + 224)).toBitVec.toNat = x + 224 := toNat_byte (by omega)
        have hseq := @lossyLoop_seq fuel 2 _ [follow y, follow z] rest
          (by rw [hb, utf8Width, if_neg (by omega), if_neg (by omega), if_pos (by omega)]) rfl (by
            simp only [List.zipIdx_cons, List.zipIdx_nil, List.forall_mem_cons,
              List.not_mem_nil, false_imp_iff, implies_true, and_true, continues, hb,
              toNat_follow hy, toNat_follow hz, Nat.reduceAdd, one_ne_zero, if_true, if_false,
              secondRange]
            split_ifs <;> dsimp only <;> omega)
        have hval : decodeSeq (x + 224) 3 [follow y, follow z] = c := by
          simp only [decodeSeq, List.foldl_cons, List.foldl_nil, toNat_follow hy, toNat_follow hz]
          rw [if_neg (by decide), ← hc]
          exact congrArg Char.ofNat (by omega)
        rw [hb, hval] at hseq
        exact hseq
      · obtain ⟨w, x, y, z, hw, hx, hy, hz, hv⟩ : ∃ w x y z, w < 8 ∧ x < 64 ∧ y < 64 ∧ z < 64 ∧
            v = 262144 * w + 4096 * x + 64 * y + z :=
          ⟨v / 262144, v / 4096 % 64, v / 64 % 64, v % 64, by omega, by omega, by omega, by omega,
            by omega⟩
        rw [show v / 262144 % 8 = w by omega, show v / 4096 % 64 = x by omega,
          show v / 64 % 64 = y by omega, show v % 64 = z by omega]
        have hb : (UInt8.ofNat (w + 240)).toBitVec.toNat = w + 240 := toNat_byte (by omega)
        have hseq := @lossyLoop_seq fuel 3 _ [follow x, follow y, follow z] rest
          (by rw [hb, utf8Width, if_neg (by omega), if_neg (by omega), if_neg (by omega),
            if_pos (by omega)]) rfl (by
            simp only [List.zipIdx_cons, List.zipIdx_nil, List.forall_mem_cons,
              List.not_mem_nil, false_imp_iff, implies_true, and_true, continues, hb,
              toNat_follow hx, toNat_follow hy, toNat_follow hz, Nat.reduceAdd, one_ne_zero,
              OfNat.ofNat_ne_zero, if_true, if_false, secondRange]
            split_ifs <;> dsimp only <;> omega)
        have hval : decodeSeq (w + 240) 4 [follow x, follow y, follow z] = c := by
          simp only [decodeSeq, List.foldl_cons, List.foldl_nil, toNat_follow hx, toNat_follow hy,
            toNat_follow hz]
          rw [if_neg (by decide), ← hc]
          exact congrArg Char.ofNat (by omega)
        rw [hb, hval] at hseq
        exact hseq

theorem nameBytes_cons (c : Char) (name : Name) :
    nameBytes (c :: name) = (String.utf8EncodeChar c).map UInt8.toBitVec ++ nameBytes name := by
  simp [nameBytes]

/-- A name of letters has a byte for each. -/
theorem length_nameBytes {name : Name} (h : ∀ c ∈ name, (String.utf8EncodeChar c).length = 1) :
    (nameBytes name).length = name.length := by
  induction name with
  | nil => rfl
  | cons c name ih =>
    rw [nameBytes_cons, List.length_append, List.length_map, h c (List.mem_cons_self ..),
      ih fun d hd => h d (List.mem_cons_of_mem c hd), List.length_cons, Nat.add_comm]

theorem lossyLoop_nameBytes {name : Name} (hfuel : (nameBytes name).length ≤ fuel) :
    lossyLoop fuel (nameBytes name) = name := by
  induction name generalizing fuel with
  | nil => cases fuel <;> rfl
  | cons c name ih =>
    have hpos : 0 < (String.utf8EncodeChar c).length :=
      List.length_pos_iff.mpr String.utf8EncodeChar_ne_nil
    rw [nameBytes_cons, List.length_append, List.length_map] at hfuel
    obtain ⟨fuel, rfl⟩ : ∃ f, fuel = f + 1 := ⟨fuel - 1, by omega⟩
    rw [nameBytes_cons, lossyLoop_char, ih (by omega)]

/-- **The bytes of a name decode to the name.** -/
theorem fromUtf8Lossy_nameBytes (name : Name) : fromUtf8Lossy (nameBytes name) = name :=
  lossyLoop_nameBytes le_rfl

end QuackOS.Ext4
