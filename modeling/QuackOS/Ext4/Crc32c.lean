import QuackOS.Lib.Crc
import QuackOS.Ext4.Checksum

/-!
# The checksum bit by bit

`crc32c` of `inode.rs` takes one byte at a time from its table.  Here it is the reflected CRC of its
polynomial, one bit at a time.

* `crc32cTable_spec` — each word of the table is eight places of its index;
* `crc32cByte_bits` — a round of the loop is eight bits of the message;
* `crc32c_bitwise` — **the checksum is the one of the polynomial**, and goes on from part to part.
-/

namespace QuackOS.Ext4

/-- The polynomial, reflected. -/
def crc32cPolynomial : BitVec 32 := 0x82F63B78

/-- The bits of some bytes, the lowest of each byte first. -/
def messageBits (data : List (BitVec 8)) : List Bool :=
  data.flatMap fun b => (List.range 8).map b.getLsbD

/-- The checksum one bit at a time: the register moves by one place and adds the polynomial when the
bit that falls out differs from the one of the message. -/
def crc32cBitwise (crc : UInt32) (data : List (BitVec 8)) : UInt32 :=
  ⟨Crc.feedAll crc32cPolynomial crc.toBitVec (messageBits data)⟩

/-- Each word of the table is its index, moved by eight places. -/
theorem crc32cTable_spec : ∀ i < 256, (crc32cTable.getD i 0).toBitVec =
    (Crc.shift crc32cPolynomial)^[8] (BitVec.ofNat 32 i) := by
  decide +kernel

theorem mask_low : ∀ i < 32, (0xFF#32).getLsbD i = decide (i < 8) := by decide

/-- A round of the loop takes the eight bits of a byte. -/
theorem crc32cByte_bits (crc : UInt32) (b : BitVec 8) : (crc32cByte crc b).toBitVec =
    Crc.feedAll crc32cPolynomial crc.toBitVec ((List.range 8).map b.getLsbD) := by
  have hbits : (List.range 8).map b.getLsbD = (List.range 8).map (b.setWidth 32).getLsbD := by
    refine List.map_congr_left fun i hi => ?_
    have hlt := List.mem_range.mp hi
    rw [BitVec.getLsbD_setWidth, decide_eq_true (by omega), Bool.true_and]
  have hhigh : ∀ i, 8 ≤ i → (b.setWidth 32).getLsbD i = false := fun i hi => by
    rw [BitVec.getLsbD_setWidth, BitVec.getLsbD_of_ge b i hi, Bool.and_false]
  have hgone : b.setWidth 32 >>> 8 = 0#32 := BitVec.eq_of_getLsbD_eq fun i _ => by
    rw [BitVec.getLsbD_ushiftRight, hhigh (8 + i) (by omega), BitVec.getLsbD_zero]
  have hword : (UInt32.ofNat b.toNat).toBitVec = b.setWidth 32 := by
    rw [UInt32.toBitVec_ofNat', BitVec.ofNat_toNat]
  -- the byte is added to the register, whose low eight bits are the index
  have hidx : ((crc ^^^ UInt32.ofNat b.toNat) &&& 0xFF).toBitVec =
      (crc.toBitVec ^^^ b.setWidth 32) &&& 0xFF#32 := by
    rw [← hword]
    rfl
  have hlt : ((crc ^^^ UInt32.ofNat b.toNat) &&& 0xFF).toNat < 256 := by
    rw [UInt32.toNat_and]
    exact Nat.lt_of_le_of_lt Nat.and_le_right (by decide)
  have hentry := crc32cTable_spec _ hlt
  rw [← UInt32.toNat_toBitVec, hidx, BitVec.ofNat_toNat, BitVec.setWidth_eq] at hentry
  rw [hbits, Crc.feedAll_bits hhigh, Crc.iterate_shift_split mask_low, BitVec.ushiftRight_xor_distrib,
    hgone, BitVec.xor_zero, ← hentry, ← hidx]
  rfl

theorem crc32c_append (crc : UInt32) (a b : List (BitVec 8)) :
    crc32c crc (a ++ b) = crc32c (crc32c crc a) b := List.foldl_append

/-- **The checksum is the reflected CRC of the polynomial.**  For every initial value the loop over
any bytes gives what they give bit by bit, and the checksum of bytes in two parts is that of the
second from the checksum of the first. -/
theorem crc32c_bitwise (crc : UInt32) :
    (∀ data, crc32c crc data = crc32cBitwise crc data) ∧
      ∀ a b, crc32c crc (a ++ b) = crc32c (crc32c crc a) b := by
  refine ⟨fun data => ?_, crc32c_append crc⟩
  induction data generalizing crc with
  | nil => rfl
  | cons b data ih =>
    have hcons : messageBits (b :: data) = (List.range 8).map b.getLsbD ++ messageBits data := rfl
    rw [crc32cBitwise, hcons, Crc.feedAll_append, ← crc32cByte_bits]
    exact ih (crc32cByte crc b)

/-- The check value of CRC-32C, of the digits from 1 to 9. -/
example : crc32cBitwise 0xFFFFFFFF [0x31, 0x32, 0x33, 0x34, 0x35, 0x36, 0x37, 0x38, 0x39] =
    ~~~0xE3069283 := by decide +kernel

end QuackOS.Ext4
