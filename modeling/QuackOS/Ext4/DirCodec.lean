import QuackOS.Lib.Records
import QuackOS.Ext4.DirEdits

/-!
# The codec of directory records

`write_to_mem` and `try_from` of `dentry.rs` against each other.

* `Ext4DirEntry.WellFormed`, `HeaderOk` — entries that can be stored, and headers that parse;
* `bytes_of_tryFrom` — the bytes of a decoded entry are those it was decoded from;
* `dirEntry_codec` — **what was written is decoded, what was decoded is written back as it was**, and
  exactly the headers in order are decoded.
-/

namespace QuackOS.Ext4

open Buffer Slice

/-- An entry that fits the record it is for. -/
structure Ext4DirEntry.WellFormed (e : Ext4DirEntry) : Prop where
  recLen_ge : 8 ≤ e.recLen.toNat
  aligned : e.recLen.toNat % 4 = 0
  length_name : e.nameLen.toNat = e.name.length
  fits : 8 + e.nameLen.toNat ≤ e.recLen.toNat

/-- The bytes hold a header, its record ends inside of them, and the name ends inside the record. -/
structure HeaderOk (buf : List (BitVec 8)) : Prop where
  header : 8 ≤ buf.length
  recLen_ge : 8 ≤ (u16At (toBuffer buf) 4).toNat
  aligned : (u16At (toBuffer buf) 4).toNat % 4 = 0
  inside : (u16At (toBuffer buf) 4).toNat ≤ buf.length
  fits : 8 + (toBuffer buf 6).toNat ≤ (u16At (toBuffer buf) 4).toNat

section Codec

variable {buf : List (BitVec 8)} {e : Ext4DirEntry}

theorem take_drop_eq_map {off n : ℕ} (h : off + n ≤ buf.length) :
    (buf.drop off).take n = (List.range n).map fun i => toBuffer buf (off + i) := by
  refine List.ext_getElem ?_ fun i hi hi' => ?_
  · rw [List.length_take, List.length_drop, List.length_map, List.length_range]
    omega
  · rw [List.length_map, List.length_range] at hi'
    rw [List.getElem_take, List.getElem_drop, List.getElem_map, List.getElem_range]
    exact (List.getD_eq_getElem _ _ (by omega)).symm

/-- The bytes of a number that was read from some bytes. -/
theorem leList_getLe {off n : ℕ} (h : off + n ≤ buf.length) :
    leList n (getLe (toBuffer buf) off n) = (buf.drop off).take n := by
  rw [take_drop_eq_map h, leList]
  exact List.map_congr_left fun i hi => digit_getLe _ (List.mem_range.mp hi)

/-- The bytes of a decoded entry are the ones at the front, up to the end of the name. -/
theorem bytes_of_tryFrom (h : Ext4DirEntry.tryFrom buf = .ok e) :
    e.bytes = buf.take (8 + e.nameLen.toNat) := by
  obtain ⟨h8, -⟩ := Ext4DirEntry.tryFrom_spec h
  have hino : leList 4 (u32At (toBuffer buf) 0).toNat = buf.take 4 := by
    rw [u32At, UInt32.toNat_ofNat_of_lt' (getLe_lt (toBuffer buf) 0 4), leList_getLe (by omega),
      List.drop_zero]
  have hrec : leList 2 (u16At (toBuffer buf) 4).toNat = (buf.drop 4).take 2 := by
    rw [u16At, UInt16.toNat_ofNat_of_lt' (getLe_lt (toBuffer buf) 4 2), leList_getLe (by omega)]
  have htail : [toBuffer buf 6, toBuffer buf 7] = (buf.drop 6).take 2 := by
    rw [take_drop_eq_map (by omega)]
    rfl
  have hfields : e = ⟨u32At (toBuffer buf) 0, u16At (toBuffer buf) 4, ⟨toBuffer buf 6⟩,
      ⟨toBuffer buf 7⟩, (buf.drop 8).take (toBuffer buf 6).toNat⟩ := by
    unfold Ext4DirEntry.tryFrom at h
    dsimp only at h
    split_ifs at h
    exact (Except.ok.inj h).symm
  subst hfields
  calc leList 4 (u32At (toBuffer buf) 0).toNat ++ leList 2 (u16At (toBuffer buf) 4).toNat ++
        [toBuffer buf 6, toBuffer buf 7] ++
        ((buf.drop 8).take (toBuffer buf 6).toNat).take (toBuffer buf 6).toNat
      = buf.take 4 ++ (buf.drop 4).take 2 ++ (buf.drop 6).take 2 ++
          (buf.drop 8).take (toBuffer buf 6).toNat := by
        rw [hino, hrec, htail, List.take_take, Nat.min_self]
    _ = buf.take (8 + (toBuffer buf 6).toNat) := by
        rw [← List.take_add, ← List.take_add, ← List.take_add]

/-- What try_from makes of a header in order. -/
theorem tryFrom_isOk_iff : (∃ e, Ext4DirEntry.tryFrom buf = .ok e) ↔ HeaderOk buf := by
  constructor
  · rintro ⟨e, h⟩
    unfold Ext4DirEntry.tryFrom at h
    dsimp only at h
    split_ifs at h with hshort hrec hname
    exact ⟨by omega, by omega, by omega, by omega, Nat.le_of_not_lt hname⟩
  · rintro ⟨h8, hge, h4, hin, hfits⟩
    unfold Ext4DirEntry.tryFrom
    have hname : ¬ (u16At (toBuffer buf) 4).toNat < 8 + (UInt8.ofBitVec (toBuffer buf 6)).toNat :=
      Nat.not_lt.mpr hfits
    rw [if_neg (by omega)]
    dsimp only
    rw [if_neg (by omega), if_neg hname]
    exact ⟨_, rfl⟩

/-- An entry written to the front of some bytes. -/
theorem writeToMem_front (hname : e.nameLen.toNat = e.name.length)
    (hfit : 8 + e.nameLen.toNat ≤ buf.length) :
    e.writeToMem buf 0 buf.length = some (e.bytes ++ buf.drop (8 + e.nameLen.toNat)) := by
  have hlen := length_entryBytes hname.symm
  rw [Ext4DirEntry.writeToMem, if_neg (by omega), blit, if_pos (by omega), List.take_zero,
    List.nil_append, Nat.zero_add, hlen]

/-- **Directory records are written and read back as they are.**  An entry that fits its record is
decoded from any bytes it was written into that the record fits; an entry that was decoded leaves the
bytes as they are when it is written back; and the bytes that are decoded are those with a header in
order. -/
theorem dirEntry_codec (buf : List (BitVec 8)) :
    (∀ e : Ext4DirEntry, e.WellFormed → e.recLen.toNat ≤ buf.length →
      ∃ buf', e.writeToMem buf 0 buf.length = some buf' ∧ Ext4DirEntry.tryFrom buf' = .ok e) ∧
    (∀ e, Ext4DirEntry.tryFrom buf = .ok e → e.writeToMem buf 0 buf.length = some buf) ∧
    ((∃ e, Ext4DirEntry.tryFrom buf = .ok e) ↔ HeaderOk buf) := by
  refine ⟨fun e hwf hlen => ?_, fun e hdec => ?_, tryFrom_isOk_iff⟩
  · have hfits := hwf.fits
    refine ⟨_, writeToMem_front hwf.length_name (by omega), ?_⟩
    refine tryFrom_bytes hwf.length_name.symm hwf.aligned ?_ hfits
    rw [List.length_append, List.length_drop, length_entryBytes hwf.length_name.symm]
    omega
  · obtain ⟨-, -, -, hle, hfits, hname, -⟩ := Ext4DirEntry.tryFrom_spec hdec
    rw [writeToMem_front hname.symm (by omega), bytes_of_tryFrom hdec, List.take_append_drop]

end Codec

end QuackOS.Ext4
