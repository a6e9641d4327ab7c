import QuackOS.Lib.Records

/-!
# Inodes on disk

`Ext4InodeDisk` of `inode.rs` byte for byte, and its timestamps.

* `setAtime`, `getAtime` and their like — a time is packed into a field and an extra word,
  and what is read back is the time stored only for whole seconds below `2 ^ 32`
  (`times_round_trip_iff`);
* `readAt`, `writeAt` — a record as 160 bytes of a buffer, read back as it was written
  (`readAt_writeAt`);
* `checksum`, `sansChecksum` — the two halves of a record's checksum, and the rest of it.
-/

namespace QuackOS.Ext4

namespace InodeTable

open Buffer

/-- `Ext4InodeDisk`.  The arrays `block` and `osd2` are kept as the bytes and the words they
consist of, lowest first. -/
@[ext] structure Ext4InodeDisk where
  mode : BitVec 16
  uid : BitVec 16
  sizeLo : BitVec 32
  atime : BitVec 32
  changeInodeTime : BitVec 32
  modifyFileTime : BitVec 32
  dtime : BitVec 32
  gid : BitVec 16
  linksCount : BitVec 16
  blocksLo : BitVec 32
  flags : BitVec 32
  osd1 : BitVec 32
  block : BitVec 480
  generation : BitVec 32
  fileAclLo : BitVec 32
  sizeHi : BitVec 32
  obsoFaddr : BitVec 32
  osd2 : BitVec 32 × BitVec 32 × BitVec 32
  extraIsize : BitVec 16
  checksumHi : BitVec 16
  changeInodeTimeExtra : BitVec 32
  modifyFileTimeExtra : BitVec 32
  atimeExtra : BitVec 32
  createTime : BitVec 32
  createTimeExtra : BitVec 32
  versionHi : BitVec 32
  projectId : BitVec 32
deriving DecidableEq

/-- `Default for Ext4InodeDisk`. -/
def Ext4InodeDisk.default : Ext4InodeDisk :=
  ⟨0, 0, 0, 0, 0, 0, 0, 0, 1, 0, 0, 0, 0, 0, 0, 0, 0, (0, 0, 0), 0, 0, 0, 0, 0, 0, 0, 0, 0⟩

/-! ## Timestamps -/

/-- `TimeSpec`; both numbers are signed. -/
@[ext] structure TimeSpec where
  sec : BitVec 64
  nsec : BitVec 64
deriving DecidableEq

namespace TimeSpec

/-- The extra word the setters make of a time: the nanoseconds above two bits of epoch. -/
def extra (t : TimeSpec) : BitVec 32 :=
  t.nsec.setWidth 32 <<< 2 ||| (t.sec.sshiftRight 32).setWidth 32 &&& 3#32

/-- The time the getters make of a field and its extra word. -/
def ofFields (time extra : BitVec 32) : TimeSpec where
  sec := time.setWidth 64 + (extra &&& 3#32).setWidth 64 <<< 32
  nsec := extra.setWidth 64

end TimeSpec

namespace Ext4InodeDisk

/-- `Ext4InodeDisk::get_atime`. -/
def getAtime (d : Ext4InodeDisk) : TimeSpec := TimeSpec.ofFields d.atime d.atimeExtra

/-- `Ext4InodeDisk::set_atime`. -/
def setAtime (d : Ext4InodeDisk) (atime : TimeSpec) : Ext4InodeDisk :=
  { d with atime := atime.sec.setWidth 32, atimeExtra := atime.extra }

/-- `Ext4InodeDisk::get_mtime`. -/
def getMtime (d : Ext4InodeDisk) : TimeSpec :=
  TimeSpec.ofFields d.modifyFileTime d.modifyFileTimeExtra

/-- `Ext4InodeDisk::set_mtime`. -/
def setMtime (d : Ext4InodeDisk) (mtime : TimeSpec) : Ext4InodeDisk :=
  { d with modifyFileTime := mtime.sec.setWidth 32, modifyFileTimeExtra := mtime.extra }

/-- `Ext4InodeDisk::get_ctime`. -/
def getCtime (d : Ext4InodeDisk) : TimeSpec :=
  TimeSpec.ofFields d.changeInodeTime d.changeInodeTimeExtra

/-- `Ext4InodeDisk::set_ctime`. -/
def setCtime (d : Ext4InodeDisk) (ctime : TimeSpec) : Ext4InodeDisk :=
  { d with changeInodeTime := ctime.sec.setWidth 32, changeInodeTimeExtra := ctime.extra }

end Ext4InodeDisk

/-- Times from the epoch on, in 34 bits of seconds and less than a second. -/
structure TimeSpec.InRange (t : TimeSpec) : Prop where
  sec_nonneg : 0 ≤ t.sec.toInt
  sec_lt : t.sec.toInt < 2 ^ 34
  nsec_nonneg : 0 ≤ t.nsec.toInt
  nsec_lt : t.nsec.toInt < 10 ^ 9

/-- A signed number that is not negative is the unsigned one. -/
theorem toNat_of_nonneg {x : BitVec 64} (h : 0 ≤ x.toInt) : (x.toNat : ℤ) = x.toInt := by
  rw [BitVec.toInt_eq_toNat_cond] at h ⊢
  have := x.isLt
  split at h <;> omega

section Times

variable {t : TimeSpec}

theorem TimeSpec.InRange.sec_toNat (h : t.InRange) : t.sec.toNat < 2 ^ 34 := by
  have h1 := toNat_of_nonneg h.sec_nonneg
  have h2 := h.sec_lt
  omega

theorem TimeSpec.InRange.nsec_toNat (h : t.InRange) : t.nsec.toNat < 10 ^ 9 := by
  have h1 := toNat_of_nonneg h.nsec_nonneg
  have h2 := h.nsec_lt
  omega

/-- The epoch bits of a time are its seconds above the low 32 bits. -/
theorem TimeSpec.toNat_epoch (h : t.InRange) :
    ((t.sec.sshiftRight 32).setWidth 32 &&& 3#32).toNat = t.sec.toNat / 2 ^ 32 := by
  have hsec := h.sec_toNat
  have hmsb : t.sec.msb = false := by
    rw [BitVec.msb_eq_decide, decide_eq_false_iff_not]
    omega
  rw [BitVec.sshiftRight_eq_of_msb_false hmsb, BitVec.toNat_and, BitVec.toNat_setWidth,
    BitVec.toNat_ushiftRight, Nat.shiftRight_eq_div_pow, show (3#32).toNat = 2 ^ 2 - 1 from rfl,
    Nat.and_two_pow_sub_one_eq_mod]
  omega

/-- The extra word as a number. -/
theorem TimeSpec.toNat_extra (h : t.InRange) :
    t.extra.toNat = 4 * t.nsec.toNat + t.sec.toNat / 2 ^ 32 := by
  have hsec := h.sec_toNat
  have hnsec := h.nsec_toNat
  have hhigh : (t.nsec.setWidth 32 <<< 2).toNat = t.nsec.toNat <<< 2 := by
    rw [BitVec.toNat_shiftLeft, BitVec.toNat_setWidth, Nat.shiftLeft_eq, Nat.shiftLeft_eq]
    omega
  rw [TimeSpec.extra, BitVec.toNat_or, TimeSpec.toNat_epoch h, hhigh,
    ← Nat.shiftLeft_add_eq_or_of_lt (by omega), Nat.shiftLeft_eq]
  omega

/-- The seconds come back. -/
theorem TimeSpec.ofFields_sec (h : t.InRange) :
    (TimeSpec.ofFields (t.sec.setWidth 32) t.extra).sec = t.sec := by
  have hsec := h.sec_toNat
  have hepoch : (t.extra &&& 3#32).toNat = t.sec.toNat / 2 ^ 32 := by
    rw [BitVec.toNat_and, TimeSpec.toNat_extra h, show (3#32).toNat = 2 ^ 2 - 1 from rfl,
      Nat.and_two_pow_sub_one_eq_mod]
    omega
  apply BitVec.eq_of_toNat_eq
  rw [TimeSpec.ofFields, BitVec.toNat_add, BitVec.toNat_shiftLeft, BitVec.toNat_setWidth,
    BitVec.toNat_setWidth, BitVec.toNat_setWidth, hepoch, Nat.shiftLeft_eq]
  omega

/-- The nanoseconds come back as the whole extra word. -/
theorem TimeSpec.ofFields_nsec (h : t.InRange) (time : BitVec 32) :
    (TimeSpec.ofFields time t.extra).nsec = t.nsec ↔ t.nsec = 0 ∧ t.sec.toNat < 2 ^ 32 := by
  have hsec := h.sec_toNat
  have hnsec := h.nsec_toNat
  have hword : (TimeSpec.ofFields time t.extra).nsec.toNat =
      4 * t.nsec.toNat + t.sec.toNat / 2 ^ 32 := by
    rw [TimeSpec.ofFields, BitVec.toNat_setWidth, TimeSpec.toNat_extra h]
    omega
  rw [← BitVec.toNat_inj, ← BitVec.toNat_inj, hword, show (0 : BitVec 64).toNat = 0 from rfl]
  omega

/-- A time stored and read back, in any of the three places. -/
theorem TimeSpec.ofFields_eq_iff (h : t.InRange) :
    TimeSpec.ofFields (t.sec.setWidth 32) t.extra = t ↔ t.nsec = 0 ∧ t.sec.toNat < 2 ^ 32 := by
  rw [TimeSpec.ext_iff, TimeSpec.ofFields_nsec h]
  exact and_iff_right (TimeSpec.ofFields_sec h)

/-- **Timestamps.**  A time comes back as it was stored just when it is a whole number of
seconds below `2 ^ 32`: the getters take the extra word for the nanoseconds, without shifting
the epoch bits out of it. -/
theorem times_round_trip_iff (d : Ext4InodeDisk) (h : t.InRange) :
    ((d.setAtime t).getAtime = t ↔ t.nsec.toInt = 0 ∧ t.sec.toInt < 2 ^ 32) ∧
    ((d.setMtime t).getMtime = t ↔ t.nsec.toInt = 0 ∧ t.sec.toInt < 2 ^ 32) ∧
    ((d.setCtime t).getCtime = t ↔ t.nsec.toInt = 0 ∧ t.sec.toInt < 2 ^ 32) := by
  have hsec := toNat_of_nonneg h.sec_nonneg
  have hcond : (t.nsec = 0 ∧ t.sec.toNat < 2 ^ 32) ↔
      t.nsec.toInt = 0 ∧ t.sec.toInt < 2 ^ 32 := by
    rw [← BitVec.toInt_inj, show (0 : BitVec 64).toInt = 0 from rfl]
    omega
  rw [← hcond]
  exact ⟨TimeSpec.ofFields_eq_iff h, TimeSpec.ofFields_eq_iff h, TimeSpec.ofFields_eq_iff h⟩

/-- A second after the epoch comes back. -/
theorem times_round_trip_one :
    TimeSpec.InRange ⟨1, 0⟩ ∧
    ((Ext4InodeDisk.default.setAtime ⟨1, 0⟩).getAtime = ⟨1, 0⟩ ↔
      (0 : BitVec 64).toInt = 0 ∧ (1 : BitVec 64).toInt < 2 ^ 32) ∧
    ((Ext4InodeDisk.default.setMtime ⟨1, 0⟩).getMtime = ⟨1, 0⟩ ↔
      (0 : BitVec 64).toInt = 0 ∧ (1 : BitVec 64).toInt < 2 ^ 32) ∧
    ((Ext4InodeDisk.default.setCtime ⟨1, 0⟩).getCtime = ⟨1, 0⟩ ↔
      (0 : BitVec 64).toInt = 0 ∧ (1 : BitVec 64).toInt < 2 ^ 32) := by
  have h : TimeSpec.InRange ⟨1, 0⟩ := ⟨by decide, by decide, by decide, by decide⟩
  exact ⟨h, times_round_trip_iff _ h⟩

/-- One nanosecond after the epoch comes back as four. -/
theorem nanosecond_becomes_four :
    TimeSpec.InRange ⟨0, 1⟩ ∧
      (Ext4InodeDisk.default.setAtime ⟨0, 1⟩).getAtime = ⟨0, 4⟩ ∧
      (Ext4InodeDisk.default.setAtime ⟨0, 1⟩).getAtime ≠ ⟨0, 1⟩ :=
  ⟨⟨by decide, by decide, by decide, by decide⟩, by decide, by decide⟩

end Times

/-! ## Records on the device -/

namespace Ext4InodeDisk

/-- The fields of a record in the order of the struct, which has no padding. -/
def fields (d : Ext4InodeDisk) : List Field :=
  [⟨2, d.mode⟩, ⟨2, d.uid⟩, ⟨4, d.sizeLo⟩, ⟨4, d.atime⟩, ⟨4, d.changeInodeTime⟩,
    ⟨4, d.modifyFileTime⟩, ⟨4, d.dtime⟩, ⟨2, d.gid⟩, ⟨2, d.linksCount⟩, ⟨4, d.blocksLo⟩,
    ⟨4, d.flags⟩, ⟨4, d.osd1⟩, ⟨60, d.block⟩, ⟨4, d.generation⟩, ⟨4, d.fileAclLo⟩,
    ⟨4, d.sizeHi⟩, ⟨4, d.obsoFaddr⟩, ⟨4, d.osd2.1⟩, ⟨4, d.osd2.2.1⟩, ⟨4, d.osd2.2.2⟩,
    ⟨2, d.extraIsize⟩, ⟨2, d.checksumHi⟩, ⟨4, d.changeInodeTimeExtra⟩,
    ⟨4, d.modifyFileTimeExtra⟩, ⟨4, d.atimeExtra⟩, ⟨4, d.createTime⟩, ⟨4, d.createTimeExtra⟩,
    ⟨4, d.versionHi⟩, ⟨4, d.projectId⟩]

/-- The widths of the fields. -/
def widths : List ℕ :=
  [2, 2, 4, 4, 4, 4, 4, 2, 2, 4, 4, 4, 60, 4, 4, 4, 4, 4, 4, 4, 2, 2, 4, 4, 4, 4, 4, 4, 4]

/-- The number of bytes of a record. -/
def diskSize : ℕ := 160

/-- The record in the bytes from `off` on, each field at its place in the struct. -/
def readAt (b : Buffer) (off : ℕ) : Ext4InodeDisk where
  mode := .ofNat 16 (getLe b off 2)
  uid := .ofNat 16 (getLe b (off + 2) 2)
  sizeLo := .ofNat 32 (getLe b (off + 4) 4)
  atime := .ofNat 32 (getLe b (off + 8) 4)
  changeInodeTime := .ofNat 32 (getLe b (off + 12) 4)
  modifyFileTime := .ofNat 32 (getLe b (off + 16) 4)
  dtime := .ofNat 32 (getLe b (off + 20) 4)
  gid := .ofNat 16 (getLe b (off + 24) 2)
  linksCount := .ofNat 16 (getLe b (off + 26) 2)
  blocksLo := .ofNat 32 (getLe b (off + 28) 4)
  flags := .ofNat 32 (getLe b (off + 32) 4)
  osd1 := .ofNat 32 (getLe b (off + 36) 4)
  block := .ofNat 480 (getLe b (off + 40) 60)
  generation := .ofNat 32 (getLe b (off + 100) 4)
  fileAclLo := .ofNat 32 (getLe b (off + 104) 4)
  sizeHi := .ofNat 32 (getLe b (off + 108) 4)
  obsoFaddr := .ofNat 32 (getLe b (off + 112) 4)
  osd2 := (.ofNat 32 (getLe b (off + 116) 4), .ofNat 32 (getLe b (off + 120) 4),
    .ofNat 32 (getLe b (off + 124) 4))
  extraIsize := .ofNat 16 (getLe b (off + 128) 2)
  checksumHi := .ofNat 16 (getLe b (off + 130) 2)
  changeInodeTimeExtra := .ofNat 32 (getLe b (off + 132) 4)
  modifyFileTimeExtra := .ofNat 32 (getLe b (off + 136) 4)
  atimeExtra := .ofNat 32 (getLe b (off + 140) 4)
  createTime := .ofNat 32 (getLe b (off + 144) 4)
  createTimeExtra := .ofNat 32 (getLe b (off + 148) 4)
  versionHi := .ofNat 32 (getLe b (off + 152) 4)
  projectId := .ofNat 32 (getLe b (off + 156) 4)

/-- Lay a record over the bytes from `off` on. -/
def writeAt (d : Ext4InodeDisk) (b : Buffer) (off : ℕ) : Buffer := putFields b off d.fields

theorem map_fields (d : Ext4InodeDisk) : d.fields.map Sigma.fst = widths := rfl

theorem fieldsWidth_fields (d : Ext4InodeDisk) : fieldsWidth d.fields = diskSize := by
  rw [fieldsWidth, map_fields]
  rfl

/-- The fields of what is read are the fields taken out. -/
theorem fields_readAt (b : Buffer) (off : ℕ) : (readAt b off).fields = getFields b off widths := by
  simp only [fields, readAt, widths, getFields, Nat.add_assoc, Nat.reduceAdd, Nat.reduceMul]

/-- The fields make the record. -/
theorem fields_injective {d e : Ext4InodeDisk} (h : d.fields = e.fields) : d = e := by
  simp only [fields, List.cons.injEq, Sigma.mk.injEq, heq_eq_eq, true_and, and_true] at h
  rw [Ext4InodeDisk.ext_iff, Prod.ext_iff, Prod.ext_iff]
  tauto

/-- A record read back is the record written. -/
theorem readAt_writeAt (d : Ext4InodeDisk) (b : Buffer) (off : ℕ) :
    readAt (d.writeAt b off) off = d := by
  apply fields_injective
  rw [fields_readAt, ← map_fields d, writeAt, getFields_putFields]

/-- Reading depends on the bytes of the record. -/
theorem readAt_congr {b c : Buffer} {off off' : ℕ}
    (h : ∀ k < diskSize, b (off + k) = c (off' + k)) : readAt b off = readAt c off' := by
  apply fields_injective
  rw [fields_readAt, fields_readAt]
  exact getFields_congr h

theorem writeAt_outside (d : Ext4InodeDisk) (b : Buffer) {off k : ℕ}
    (h : k < off ∨ off + diskSize ≤ k) : d.writeAt b off k = b k :=
  putFields_outside (by rwa [fieldsWidth_fields])

/-- The checksum of a record, from its two halves. -/
def checksum (d : Ext4InodeDisk) : BitVec 32 :=
  d.checksumHi ++ d.osd2.2.2.setWidth 16

/-- A record without the two halves of its checksum, which are all of `checksum_hi` and the
low half of the last word of `osd2`. -/
def sansChecksum (d : Ext4InodeDisk) : Ext4InodeDisk :=
  { d with
    osd2 := (d.osd2.1, d.osd2.2.1, d.osd2.2.2 >>> 16 <<< 16)
    checksumHi := 0 }

theorem generation_sansChecksum (d : Ext4InodeDisk) :
    d.sansChecksum.generation = d.generation := by
  rw [sansChecksum]

end Ext4InodeDisk

end InodeTable

end QuackOS.Ext4
