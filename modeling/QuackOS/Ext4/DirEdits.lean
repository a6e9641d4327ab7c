import QuackOS.Ext4.DirRecords

/-!
# Changing a directory

What `add_entry` and `delete_entry` make of the records of a directory: an entry goes into a
free record or behind the name of one in use, and the bytes of a deleted one go to the record in
front of it.

* `DirRecord.written` — the record that stands where an entry was written;
* `DirRecord.takes`, `Placed`, `addEntry_contents` — adding;
* `Merged`, `deleteEntry_contents` — deleting.
-/

namespace QuackOS.Ext4

open Buffer Slice

/-! ## Writing records -/

section Writing

variable {pre post slack : List (BitVec 8)} {e : Ext4DirEntry} {n v i : ℕ}

/-- The bytes of a number behind other bytes. -/
theorem toBuffer_leList (hi : i < n) :
    toBuffer (pre ++ (leList n v ++ post)) (pre.length + i) = BitVec.ofNat 8 (v / 256 ^ i) := by
  have hlen : i < (leList n v).length := by simpa [leList] using hi
  unfold toBuffer
  rw [DirRecord.getD_append_right', List.getD_append _ _ _ _ hlen, List.getD_eq_getElem _ _ hlen]
  simp [leList]

theorem getLe_leList : getLe (toBuffer (pre ++ (leList n v ++ post))) pre.length n = v % 256 ^ n :=
  getLe_of_digits fun _ hi => toBuffer_leList hi

theorem length_entryBytes (h : e.name.length = e.nameLen.toNat) :
    e.bytes.length = 8 + e.nameLen.toNat := by
  simp only [Ext4DirEntry.bytes, leList, List.length_append, List.length_map, List.length_range,
    List.length_cons, List.length_nil, List.length_take, h, min_self]

/-- **A record that was written is parsed**, with any bytes behind its name. -/
theorem tryFrom_bytes (hname : e.name.length = e.nameLen.toNat) (h4 : e.recLen.toNat % 4 = 0)
    (hle : e.recLen.toNat ≤ (e.bytes ++ slack).length)
    (hfits : 8 + e.nameLen.toNat ≤ e.recLen.toNat) :
    Ext4DirEntry.tryFrom (e.bytes ++ slack) = .ok e := by
  have hsplit : e.bytes ++ slack = leList 4 e.inodeNum.toNat ++ (leList 2 e.recLen.toNat ++
      ([e.nameLen.toBitVec, e.fileType.toBitVec] ++ (e.name ++ slack))) := by
    rw [Ext4DirEntry.bytes, List.take_of_length_le hname.le]
    simp only [List.append_assoc]
  have hino : u32At (toBuffer (e.bytes ++ slack)) 0 = e.inodeNum := by
    have h := @getLe_leList [] (leList 2 e.recLen.toNat ++
      ([e.nameLen.toBitVec, e.fileType.toBitVec] ++ (e.name ++ slack))) 4 e.inodeNum.toNat
    rw [hsplit]
    rw [List.nil_append, List.length_nil, Nat.mod_eq_of_lt (by simpa using e.inodeNum.toNat_lt)] at h
    rw [u32At, h, UInt32.ofNat_toNat]
  have hrec : u16At (toBuffer (e.bytes ++ slack)) 4 = e.recLen := by
    have h := @getLe_leList (leList 4 e.inodeNum.toNat)
      ([e.nameLen.toBitVec, e.fileType.toBitVec] ++ (e.name ++ slack)) 2 e.recLen.toNat
    have h4 : (leList 4 e.inodeNum.toNat).length = 4 := by simp [leList]
    rw [hsplit]
    rw [h4, Nat.mod_eq_of_lt (by simpa using e.recLen.toNat_lt)] at h
    rw [u16At, h, UInt16.ofNat_toNat]
  have hnth : ∀ k b, ([e.nameLen.toBitVec, e.fileType.toBitVec] ++ (e.name ++ slack)).getD k 0 = b →
      toBuffer (e.bytes ++ slack) (6 + k) = b := by
    intro k b hb
    have h := @DirRecord.getD_append_right' (leList 4 e.inodeNum.toNat ++ leList 2 e.recLen.toNat)
      ([e.nameLen.toBitVec, e.fileType.toBitVec] ++ (e.name ++ slack)) k
    have h6 : (leList 4 e.inodeNum.toNat ++ leList 2 e.recLen.toNat).length = 6 := by simp [leList]
    rw [h6, List.append_assoc, ← hsplit, hb] at h
    exact h
  have hlen : toBuffer (e.bytes ++ slack) 6 = e.nameLen.toBitVec := hnth 0 _ rfl
  have htype : toBuffer (e.bytes ++ slack) 7 = e.fileType.toBitVec := hnth 1 _ rfl
  have hbytes : ((e.bytes ++ slack).drop 8).take e.nameLen.toNat = e.name := by
    have h8 : (leList 4 e.inodeNum.toNat ++ (leList 2 e.recLen.toNat ++
        [e.nameLen.toBitVec, e.fileType.toBitVec])).length = 8 := by simp [leList]
    have hdrop : (e.bytes ++ slack).drop 8 = e.name ++ slack := by
      rw [hsplit, ← List.append_assoc, ← List.append_assoc, List.append_assoc (leList 4 _),
        List.drop_left' h8]
    rw [hdrop, ← hname, List.take_left]
  unfold Ext4DirEntry.tryFrom
  dsimp only
  rw [if_neg (by omega), hino, hrec, hlen, htype, if_neg (by omega)]
  have hnameLen : (UInt8.ofBitVec e.nameLen.toBitVec).toNat = e.nameLen.toNat := rfl
  rw [hnameLen, if_neg (by omega), hbytes]

theorem length_writeToMem {content content' : List (BitVec 8)} {off stop : ℕ}
    (h : e.writeToMem content off stop = some content') : content'.length = content.length := by
  unfold Ext4DirEntry.writeToMem at h
  split at h
  · cases h
  · exact length_blit h

/-- A write up to the end of the contents goes through when the header and the name fit. -/
theorem writeToMem_ne_none {content : List (BitVec 8)} {off : ℕ}
    (hname : e.nameLen.toNat ≤ e.name.length) :
    e.writeToMem content off content.length ≠ none ↔
      off + 8 + e.nameLen.toNat ≤ content.length := by
  have hlen : e.bytes.length = 8 + e.nameLen.toNat := by
    simp only [Ext4DirEntry.bytes, leList, List.length_append, List.length_map, List.length_range,
      List.length_cons, List.length_nil, List.length_take]
    omega
  unfold Ext4DirEntry.writeToMem
  split
  · refine iff_of_false (fun hne => hne rfl) (by omega)
  · rw [blit, if_pos (by omega)]
    exact iff_of_true (Option.some_ne_none _) (by omega)

end Writing

/-- The record that stands where an entry was written, with what is left behind its name. -/
def DirRecord.written (e : Ext4DirEntry) (slack : List (BitVec 8))
    (hname : e.name.length = e.nameLen.toNat) (h4 : e.recLen.toNat % 4 = 0)
    (hlen : e.recLen.toNat = (e.bytes ++ slack).length) : DirRecord where
  bytes := e.bytes ++ slack
  entry := e
  parsed := tryFrom_bytes hname h4 hlen.le (by
    rw [hlen, List.length_append, length_entryBytes hname]
    exact Nat.le_add_right ..)
  covers := hlen

/-- The entry as the parser gives it back: the name is cut to what its length field says. -/
def Ext4DirEntry.stored (e : Ext4DirEntry) : Ext4DirEntry :=
  { e with name := e.name.take e.nameLen.toNat }

section Regions

variable {pre mid post : List (BitVec 8)} {e : Ext4DirEntry} {r : DirRecord} {stop : ℕ}

theorem stored_of_whole (h : e.name.length = e.nameLen.toNat) : e.stored = e := by
  rw [Ext4DirEntry.stored, ← h, List.take_length]

theorem length_stored (h : e.nameLen.toNat ≤ e.name.length) :
    e.stored.name.length = e.stored.nameLen.toNat := by
  change (e.name.take e.nameLen.toNat).length = e.nameLen.toNat
  rw [List.length_take, Nat.min_eq_left h]

theorem bytes_stored : e.stored.bytes = e.bytes := by
  change _ ++ (e.name.take e.nameLen.toNat).take e.nameLen.toNat = _
  rw [List.take_take, Nat.min_self]
  rfl

/-- **An entry that is written over a region of the length it says becomes a record there**, if
its name fits. -/
theorem write_region (hname : e.nameLen.toNat ≤ e.name.length) (h4 : mid.length % 4 = 0)
    (hlen : e.recLen.toNat = mid.length) (hfits : 8 + e.nameLen.toNat ≤ mid.length)
    (hstop : pre.length + 8 + e.nameLen.toNat ≤ stop) :
    ∃ new : DirRecord, new.entry = e.stored ∧ new.bytes.length = mid.length ∧
      e.writeToMem (pre ++ (mid ++ post)) pre.length stop = some (pre ++ (new.bytes ++ post)) := by
  have hwhole := length_stored hname
  have hbytes : e.stored.bytes.length = 8 + e.nameLen.toNat := length_entryBytes hwhole
  have hcover : (e.stored.bytes ++ mid.drop e.stored.bytes.length).length = mid.length := by
    rw [List.length_append, List.length_drop, hbytes, Nat.add_sub_cancel' hfits]
  refine ⟨DirRecord.written e.stored (mid.drop e.stored.bytes.length) hwhole
    (by change e.recLen.toNat % 4 = 0; omega) (by rw [hcover]; exact hlen), rfl, hcover, ?_⟩
  rw [Ext4DirEntry.writeToMem, ← bytes_stored, if_neg (by omega),
    blit_within (by rw [hbytes]; exact hfits)]
  rfl

/-- A record is written over with an entry of the same lengths. -/
theorem write_over_record (hrec : e.recLen = r.entry.recLen) (hlen : e.nameLen = r.entry.nameLen)
    (hname : e.name = r.entry.name) :
    ∃ new : DirRecord, new.entry = e ∧ new.bytes.length = r.bytes.length ∧
      e.writeToMem (pre ++ (r.bytes ++ post)) pre.length (pre.length + r.bytes.length) =
        some (pre ++ (new.bytes ++ post)) := by
  obtain ⟨-, h4, hfits⟩ := r.length_bytes
  have hwhole : e.name.length = e.nameLen.toNat := by
    rw [hname, hlen]
    exact r.length_name
  rw [← hlen] at hfits
  obtain ⟨new, hentry, hnew, hwrite⟩ := @write_region pre r.bytes post e
    (pre.length + r.bytes.length) hwhole.ge h4 (by rw [hrec, r.covers]) hfits (by omega)
  exact ⟨new, hentry.trans (stored_of_whole hwhole), hnew, hwrite⟩

end Regions

/-! ## Adding -/

section Adding

variable {pre : List (BitVec 8)} {before after rs news : List DirRecord} {r : DirRecord} {fuel : ℕ}
  {name : Name} {inodeNum : UInt32} {fileType : UInt8}

/-- Whether `add_entry` puts an entry for this name into the record: into a free one that is long
enough, or behind the name of one in use. -/
def DirRecord.takes (name : Name) (r : DirRecord) : Bool :=
  let needed := DirContent.neededLen (nameBytes name).length
  if r.live then DirContent.neededLen r.entry.nameLen.toNat + needed ≤ r.entry.recLen
  else needed ≤ r.entry.recLen

/-- What `add_entry` makes of the record it uses. -/
inductive Placed (name : Name) (inodeNum : UInt32) (fileType : UInt8) (r : DirRecord) :
    List DirRecord → Prop
  | free (new : DirRecord) (dead : r.live = false)
    (entry : new.entry = DirContent.newEntry name inodeNum r.entry.recLen fileType) :
    Placed name inodeNum fileType r [new]
  | behind (old new : DirRecord) (live : r.live = true)
    (same : old.entry = { r.entry with recLen := old.entry.recLen })
    (entry : new.entry = DirContent.newEntry name inodeNum new.entry.recLen fileType)
    (length : old.bytes.length + new.bytes.length = r.bytes.length) :
    Placed name inodeNum fileType r [old, new]

theorem toNat_neededLen {n : ℕ} (h : n ≤ 255) :
    (DirContent.neededLen n).toNat = (n + 8 + 3) / 4 * 4 := by
  rw [DirContent.neededLen, UInt16.toNat_ofNat', Nat.mod_eq_of_lt (by omega)]

theorem toNat_nameLen {n : ℕ} (h : n ≤ 255) : (UInt8.ofNat n).toNat = n := by
  rw [UInt8.toNat_ofNat', Nat.mod_eq_of_lt (by omega)]

/-- The entry `add_entry` writes has the name whole. -/
theorem newEntry_name (h : (nameBytes name).length ≤ 255) (recLen : UInt16) :
    (DirContent.newEntry name inodeNum recLen fileType).name.length =
      (DirContent.newEntry name inodeNum recLen fileType).nameLen.toNat :=
  (toNat_nameLen h).symm

/-- A free record that takes a name has room for it. -/
theorem room_of_takes_dead (h : (nameBytes name).length ≤ 255) (hdead : r.live = false)
    (htakes : r.takes name = true) : 8 + (nameBytes name).length ≤ r.bytes.length := by
  rw [DirRecord.takes, hdead] at htakes
  have hle := UInt16.le_iff_toNat_le.mp (of_decide_eq_true htakes)
  rw [r.covers, toNat_neededLen h] at hle
  omega

/-- A record in use that takes a name has room for it behind its own. -/
theorem room_of_takes_live (h : (nameBytes name).length ≤ 255) (hlive : r.live = true)
    (htakes : r.takes name = true) : (DirContent.neededLen r.entry.nameLen.toNat).toNat +
      (8 + (nameBytes name).length) ≤ r.bytes.length := by
  have hnl : r.entry.nameLen.toNat ≤ 255 := by
    have := r.entry.nameLen.toNat_lt
    omega
  have hc := toNat_neededLen hnl
  have hn := toNat_neededLen h
  rw [DirRecord.takes, if_pos hlive] at htakes
  have hle := UInt16.le_iff_toNat_le.mp (of_decide_eq_true htakes)
  rw [UInt16.toNat_add, Nat.mod_eq_of_lt (by omega), r.covers] at hle
  omega

/-- Where the entry goes in a record: behind the name of one in use. -/
def DirRecord.used (r : DirRecord) : ℕ :=
  if r.live then (DirContent.neededLen r.entry.nameLen.toNat).toNat else 0

/-- The length of the name that is written of an entry: its length field is one byte. -/
theorem nameLen_newEntry (name : Name) (inodeNum : UInt32) (recLen : UInt16) (fileType : UInt8) :
    (DirContent.newEntry name inodeNum recLen fileType).nameLen.toNat =
        (nameBytes name).length % 256 ∧
      (DirContent.newEntry name inodeNum recLen fileType).nameLen.toNat ≤
        (DirContent.newEntry name inodeNum recLen fileType).name.length := by
  have h : (DirContent.newEntry name inodeNum recLen fileType).nameLen.toNat =
      (nameBytes name).length % 256 := UInt8.toNat_ofNat'
  refine ⟨h, ?_⟩
  rw [h]
  exact Nat.mod_le _ _

/-- A free record is written over, whatever the length of the name, if there is room. -/
theorem write_free {post : List (BitVec 8)}
    (hroom : 8 + (nameBytes name).length % 256 ≤ r.bytes.length) :
    ∃ new : DirRecord,
      new.entry = (DirContent.newEntry name inodeNum r.entry.recLen fileType).stored ∧
      new.bytes.length = r.bytes.length ∧
      (DirContent.newEntry name inodeNum r.entry.recLen fileType).writeToMem
        (pre ++ (r.bytes ++ post)) pre.length (pre ++ (r.bytes ++ post)).length =
          some (pre ++ (new.bytes ++ post)) := by
  obtain ⟨hcut, hname⟩ := nameLen_newEntry name inodeNum r.entry.recLen fileType
  exact write_region hname r.length_bytes.2.1 r.covers (by omega)
    (by simp only [List.length_append]; omega)

/-- The room a record in use keeps for its own name. -/
theorem DirRecord.neededLen_le (r : DirRecord) :
    8 + r.entry.nameLen.toNat ≤ (DirContent.neededLen r.entry.nameLen.toNat).toNat ∧
      (DirContent.neededLen r.entry.nameLen.toNat).toNat % 4 = 0 ∧
      (DirContent.neededLen r.entry.nameLen.toNat).toNat ≤ r.bytes.length := by
  have hnl : r.entry.nameLen.toNat ≤ 255 := by
    have := r.entry.nameLen.toNat_lt
    omega
  have hc := toNat_neededLen hnl
  obtain ⟨-, h4, hfits⟩ := r.length_bytes
  omega

/-- A record in use is cut behind its name, and the entry is written there. -/
theorem write_behind {post : List (BitVec 8)}
    (hroom : (DirContent.neededLen r.entry.nameLen.toNat).toNat + 8 +
      (nameBytes name).length % 256 ≤ r.bytes.length) :
    ∃ (old new : DirRecord) (content₁ : List (BitVec 8)),
      old.entry = { r.entry with recLen := DirContent.neededLen r.entry.nameLen.toNat } ∧
      new.entry = (DirContent.newEntry name inodeNum new.entry.recLen fileType).stored ∧
      old.bytes.length + new.bytes.length = r.bytes.length ∧
      { r.entry with recLen := DirContent.neededLen r.entry.nameLen.toNat }.writeToMem
        (pre ++ (r.bytes ++ post)) pre.length (pre ++ (r.bytes ++ post)).length = some content₁ ∧
      (DirContent.newEntry name inodeNum
        (r.entry.recLen - DirContent.neededLen r.entry.nameLen.toNat) fileType).writeToMem content₁
        (pre.length + (DirContent.neededLen r.entry.nameLen.toNat).toNat)
        (pre ++ (r.bytes ++ post)).length =
          some (pre ++ (old.bytes ++ (new.bytes ++ post))) := by
  obtain ⟨hown, hc4, hcle⟩ := r.neededLen_le
  obtain ⟨-, h4, -⟩ := r.length_bytes
  generalize DirContent.neededLen r.entry.nameLen.toNat = c at hroom hown hc4 hcle ⊢
  have hrest : (r.entry.recLen - c).toNat = r.bytes.length - c.toNat := by
    have hle : c ≤ r.entry.recLen := UInt16.le_iff_toNat_le.mpr (by rw [r.covers]; exact hcle)
    rw [UInt16.toNat_sub_of_le _ _ hle, r.covers]
  let e₁ : Ext4DirEntry := { r.entry with recLen := c }
  have hname₁ : e₁.name.length = e₁.nameLen.toNat := r.length_name
  obtain ⟨hcut, hname₂⟩ := nameLen_newEntry name inodeNum (r.entry.recLen - c) fileType
  -- the record is two regions, and each write fills one
  have hfront : (r.bytes.take c.toNat).length = c.toNat := by
    rw [List.length_take, Nat.min_eq_left hcle]
  have hback : (r.bytes.drop c.toNat).length = r.bytes.length - c.toNat := List.length_drop
  have hsplit : r.bytes ++ post = r.bytes.take c.toNat ++ (r.bytes.drop c.toNat ++ post) := by
    rw [← List.append_assoc, List.take_append_drop]
  have hlen : (pre ++ (r.bytes ++ post)).length = pre.length + (r.bytes.length + post.length) := by
    simp only [List.length_append]
  obtain ⟨old, hold, holdLen, hwrite₁⟩ := @write_region pre (r.bytes.take c.toNat)
    (r.bytes.drop c.toNat ++ post) e₁ (pre ++ (r.bytes ++ post)).length hname₁.ge
    (by rw [hfront]; exact hc4) hfront.symm (by rw [hfront]; exact hown)
    (by rw [hlen]; change pre.length + 8 + r.entry.nameLen.toNat ≤ _; omega)
  obtain ⟨new, hnew, hnewLen, hwrite₂⟩ := @write_region (pre ++ old.bytes) (r.bytes.drop c.toNat)
    post (DirContent.newEntry name inodeNum (r.entry.recLen - c) fileType)
    (pre ++ (r.bytes ++ post)).length hname₂ (by omega) (by rw [hback]; exact hrest) (by omega)
    (by rw [hlen, List.length_append]; omega)
  rw [← hsplit] at hwrite₁
  rw [List.length_append, holdLen, hfront, List.append_assoc, List.append_assoc] at hwrite₂
  refine ⟨old, new, _, hold.trans (stored_of_whole hname₁), ?_, by omega, hwrite₁, hwrite₂⟩
  rw [hnew]
  rfl

theorem DirRecord.takes_dead_iff (hino : r.entry.inodeNum = 0) : r.takes name = true ↔
    DirContent.neededLen (nameBytes name).length ≤ r.entry.recLen := by
  simp [DirRecord.takes, DirRecord.live, hino]

theorem DirRecord.takes_live_iff (hino : r.entry.inodeNum ≠ 0) : r.takes name = true ↔
    DirContent.neededLen r.entry.nameLen.toNat +
      DirContent.neededLen (nameBytes name).length ≤ r.entry.recLen := by
  simp [DirRecord.takes, DirRecord.live, hino]

/-- What the loop of `add_entry` does at a record. -/
theorem addEntryLoop_record {post : List (BitVec 8)} :
    DirContent.addEntryLoop (pre ++ (r.bytes ++ post)) name inodeNum fileType (fuel + 1)
        pre.length =
      if r.entry.inodeNum = 0 ∧ DirContent.neededLen (nameBytes name).length ≤ r.entry.recLen then
        ((DirContent.newEntry name inodeNum r.entry.recLen fileType).writeToMem
          (pre ++ (r.bytes ++ post)) pre.length (pre ++ (r.bytes ++ post)).length).map .ok
      else if r.entry.inodeNum ≠ 0 ∧ DirContent.neededLen r.entry.nameLen.toNat +
          DirContent.neededLen (nameBytes name).length ≤ r.entry.recLen then do
        let content₁ ←
          { r.entry with recLen := DirContent.neededLen r.entry.nameLen.toNat }.writeToMem
            (pre ++ (r.bytes ++ post)) pre.length (pre ++ (r.bytes ++ post)).length
        let content₂ ← (DirContent.newEntry name inodeNum
          (r.entry.recLen - DirContent.neededLen r.entry.nameLen.toNat) fileType).writeToMem
            content₁ (pre.length + (DirContent.neededLen r.entry.nameLen.toNat).toNat)
            (pre ++ (r.bytes ++ post)).length
        return .ok content₂
      else DirContent.addEntryLoop (pre ++ (r.bytes ++ post)) name inodeNum fileType fuel
        (pre.length + r.entry.recLen.toNat) := by
  have hlen := r.length_bytes.1
  have hmin : ¬ r.entry.recLen < 8 := by
    rw [UInt16.not_lt, UInt16.le_iff_toNat_le, r.covers]
    exact hlen
  rw [DirContent.addEntryLoop, if_neg (by simp only [List.length_append]; omega),
    if_neg (by simp only [List.length_append]; omega)]
  dsimp only
  rw [DirRecord.u16At_record, if_neg hmin, DirRecord.entryAt_record]

/-- What stands where a record took an entry: in front what the record keeps of its own, and the
entry as far as its name is written. -/
structure Fitted (name : Name) (inodeNum : UInt32) (fileType : UInt8) (r : DirRecord)
    (front : List DirRecord) (new : DirRecord) : Prop where
  kept : r.live = false ∧ front = [] ∨ r.live = true ∧ ∃ old : DirRecord, front = [old] ∧
    old.entry = { r.entry with recLen := DirContent.neededLen r.entry.nameLen.toNat }
  entry : new.entry = (DirContent.newEntry name inodeNum new.entry.recLen fileType).stored
  used : (contents front).length = r.used
  length : (contents front).length + new.bytes.length = r.bytes.length

/-- The entry goes into the record the loop of `add_entry` is at, if there is room. -/
theorem addEntryLoop_fits {post : List (BitVec 8)} (htakes : r.takes name = true)
    (hroom : r.used + 8 + (nameBytes name).length % 256 ≤ r.bytes.length) :
    ∃ front new, Fitted name inodeNum fileType r front new ∧
      DirContent.addEntryLoop (pre ++ (r.bytes ++ post)) name inodeNum fileType (fuel + 1)
        pre.length = some (.ok (pre ++ (contents (front ++ [new]) ++ post))) := by
  rw [addEntryLoop_record]
  by_cases hino : r.entry.inodeNum = 0
  · have hdead : r.live = false := by simpa [DirRecord.live] using hino
    have hused : r.used = 0 := by rw [DirRecord.used, hdead, if_neg Bool.false_ne_true]
    obtain ⟨new, hentry, hlen, hwrite⟩ := @write_free pre r name inodeNum fileType post (by omega)
    have hrec : new.entry.recLen = r.entry.recLen := by
      rw [hentry]
      rfl
    refine ⟨[], new, ⟨.inl ⟨hdead, rfl⟩, by rw [hrec]; exact hentry, by rw [hused]; rfl,
      by rw [contents_nil, List.length_nil, Nat.zero_add, hlen]⟩, ?_⟩
    rw [if_pos ⟨hino, (DirRecord.takes_dead_iff hino).mp htakes⟩, hwrite]
    simp
  · have hlive : r.live = true := by simpa [DirRecord.live] using hino
    have hused : r.used = (DirContent.neededLen r.entry.nameLen.toNat).toNat := by
      rw [DirRecord.used, if_pos hlive]
    obtain ⟨old, new, content₁, hold, hnew, hlen, hwrite₁, hwrite₂⟩ := @write_behind pre r name
      inodeNum fileType post (by omega)
    have hone : (contents [old]).length = old.bytes.length := by
      rw [contents_cons, contents_nil, List.append_nil]
    refine ⟨[old], new, ⟨.inr ⟨hlive, old, rfl, hold⟩, hnew, ?_, by rw [hone, hlen]⟩, ?_⟩
    · rw [hone, ← old.covers, hold, hused]
    · rw [if_neg (fun hdead => hino hdead.1),
        if_pos ⟨hino, (DirRecord.takes_live_iff hino).mp htakes⟩]
      simp only [hwrite₁, hwrite₂, Option.bind_eq_bind, Option.bind_some]
      simp

/-- A record that does not take the entry is passed over. -/
theorem addEntryLoop_skips {post : List (BitVec 8)} (hfull : r.takes name = false) :
    DirContent.addEntryLoop (pre ++ (r.bytes ++ post)) name inodeNum fileType (fuel + 1)
        pre.length =
      DirContent.addEntryLoop ((pre ++ r.bytes) ++ post) name inodeNum fileType fuel
        (pre ++ r.bytes).length := by
  have hfull' : ¬ r.takes name = true := by simp [hfull]
  have hskip : ¬ (r.entry.inodeNum = 0 ∧
      DirContent.neededLen (nameBytes name).length ≤ r.entry.recLen) :=
    fun hroom => hfull' ((DirRecord.takes_dead_iff hroom.1).mpr hroom.2)
  have hskip' : ¬ (r.entry.inodeNum ≠ 0 ∧ DirContent.neededLen r.entry.nameLen.toNat +
      DirContent.neededLen (nameBytes name).length ≤ r.entry.recLen) :=
    fun hroom => hfull' ((DirRecord.takes_live_iff hroom.1).mpr hroom.2)
  rw [addEntryLoop_record, if_neg hskip, if_neg hskip', r.covers, List.append_assoc,
    List.length_append]

/-- The loop of `add_entry` comes to the first record that takes the entry. -/
theorem addEntryLoop_first (hfuel : rs.length ≤ fuel) :
    (∀ r ∈ rs, r.takes name = false) ∧
      DirContent.addEntryLoop (pre ++ contents rs) name inodeNum fileType fuel pre.length =
        some (.error "No space left in directory block") ∨
    ∃ before r after f, rs = before ++ r :: after ∧ (∀ b ∈ before, b.takes name = false) ∧
      r.takes name = true ∧
      DirContent.addEntryLoop (pre ++ contents rs) name inodeNum fileType fuel pre.length =
        DirContent.addEntryLoop ((pre ++ contents before) ++ contents (r :: after)) name inodeNum
          fileType (f + 1) (pre ++ contents before).length := by
  induction rs generalizing pre fuel with
  | nil =>
    refine Or.inl ⟨by simp, ?_⟩
    cases fuel with
    | zero => rfl
    | succ fuel => rw [DirContent.addEntryLoop, if_pos (by simp)]
  | cons r rs ih =>
    obtain ⟨fuel, rfl⟩ : ∃ f, fuel = f + 1 := ⟨fuel - 1, by rw [List.length_cons] at hfuel; omega⟩
    have hfuel' : rs.length ≤ fuel := by
      rw [List.length_cons] at hfuel
      omega
    cases htakes : r.takes name with
    | true =>
      exact Or.inr ⟨[], r, rs, fuel, rfl, by simp, htakes, by rw [contents_nil, List.append_nil]⟩
    | false =>
      rw [contents_cons, addEntryLoop_skips htakes]
      rcases @ih (pre ++ r.bytes) fuel hfuel' with ⟨hall, hloop⟩ |
        ⟨before, q, after, f, hsplit, hbefore, hq, hloop⟩
      · exact Or.inl ⟨List.forall_mem_cons.mpr ⟨htakes, hall⟩, hloop⟩
      · refine Or.inr ⟨r :: before, q, after, f, by rw [hsplit, List.cons_append],
          List.forall_mem_cons.mpr ⟨htakes, hbefore⟩, hq, ?_⟩
        rw [hloop, contents_cons r before, List.append_assoc pre]

/-- The first record that takes the entry has room for the name that is written. -/
def Roomy (name : Name) (rs : List DirRecord) : Prop :=
  ∀ before r after, rs = before ++ r :: after → (∀ b ∈ before, b.takes name = false) →
    r.takes name = true → r.used + 8 + (nameBytes name).length % 256 ≤ r.bytes.length

/-- **`add_entry` puts the entry into the first record that takes it**, if there is room. -/
theorem addEntry_records (hroomy : Roomy name rs) :
    (∀ r ∈ rs, r.takes name = false) ∧
      DirContent.addEntry (contents rs) name inodeNum fileType =
        some (.error "No space left in directory block") ∨
    ∃ before r after front new, rs = before ++ r :: after ∧ (∀ b ∈ before, b.takes name = false) ∧
      r.takes name = true ∧ Fitted name inodeNum fileType r front new ∧
      DirContent.addEntry (contents rs) name inodeNum fileType =
        some (.ok (contents (before ++ (front ++ [new]) ++ after))) := by
  rcases @addEntryLoop_first [] rs _ name inodeNum fileType (length_contents_le rs) with hnone |
    ⟨before, r, after, f, hsplit, hbefore, htakes, hloop⟩
  · exact Or.inl hnone
  · obtain ⟨front, new, hfitted, hput⟩ := @addEntryLoop_fits (contents before) r f name inodeNum
      fileType (contents after) htakes (hroomy before r after hsplit hbefore htakes)
    refine Or.inr ⟨before, r, after, front, new, hsplit, hbefore, htakes, hfitted, ?_⟩
    rw [List.nil_append, List.nil_append, contents_cons, hput] at hloop
    rw [DirContent.addEntry]
    refine hloop.trans ?_
    simp only [contents_append, List.append_assoc]

/-- A record that takes a name of at most 255 bytes has room for it. -/
theorem roomy_of_short (h : (nameBytes name).length ≤ 255) : Roomy name rs := by
  intro before r after _ _ htakes
  rw [DirRecord.used]
  cases hlive : r.live with
  | true =>
    have hroom := room_of_takes_live h hlive htakes
    rw [if_pos rfl]
    omega
  | false =>
    have hroom := room_of_takes_dead h hlive htakes
    rw [if_neg Bool.false_ne_true]
    omega

theorem Fitted.placed {front : List DirRecord} {new : DirRecord}
    (h : Fitted name inodeNum fileType r front new) (hname : (nameBytes name).length ≤ 255) :
    Placed name inodeNum fileType r (front ++ [new]) := by
  have hentry := h.entry
  rw [stored_of_whole (newEntry_name hname _)] at hentry
  rcases h.kept with ⟨hdead, rfl⟩ | ⟨hlive, old, rfl, hold⟩
  · have hlen := h.length
    rw [contents_nil, List.length_nil, Nat.zero_add, ← new.covers, ← r.covers] at hlen
    exact .free new hdead (by rw [← UInt16.toNat_inj.mp hlen]; exact hentry)
  · have hlen := h.length
    rw [contents_cons, contents_nil, List.append_nil] at hlen
    exact .behind old new hlive (by rw [hold]) hentry hlen

/-- **`add_entry` puts the entry into the first record that takes it**, and fails when none
does. -/
theorem addEntry_contents (h : (nameBytes name).length ≤ 255) :
    (∀ r ∈ rs, r.takes name = false) ∧
      DirContent.addEntry (contents rs) name inodeNum fileType =
        some (.error "No space left in directory block") ∨
    ∃ before r after news, rs = before ++ r :: after ∧ (∀ b ∈ before, b.takes name = false) ∧
      r.takes name = true ∧ Placed name inodeNum fileType r news ∧
      DirContent.addEntry (contents rs) name inodeNum fileType =
        some (.ok (contents (before ++ news ++ after))) := by
  rcases @addEntry_records rs name inodeNum fileType (roomy_of_short h) with hnone |
    ⟨before, r, after, front, new, hsplit, hbefore, htakes, hfitted, hadd⟩
  · exact Or.inl hnone
  · exact Or.inr ⟨before, r, after, front ++ [new], hsplit, hbefore, htakes, hfitted.placed h, hadd⟩

/-- The records an entry is put into take the bytes of the one that was there. -/
theorem Placed.length (h : Placed name inodeNum fileType r news) :
    (contents news).length = r.bytes.length := by
  cases h with
  | free new dead entry =>
    rw [contents_cons, contents_nil, List.append_nil, ← new.covers, entry, ← r.covers]
    rfl
  | behind old new live same entry length =>
    rw [contents_cons, contents_cons, contents_nil, List.append_nil, List.length_append, length]

/-- A record for a name is found under that name. -/
theorem name_of_newEntry {recLen : UInt16} (h : (nameBytes name).length ≤ 255)
    (hr : r.entry = DirContent.newEntry name inodeNum recLen fileType) : r.name = name := by
  have htake : r.entry.name.take r.entry.nameLen.toNat = nameBytes name := by
    rw [hr, ← newEntry_name h, List.take_length]
    rfl
  rw [DirRecord.name, DirContent.nameOf, htake, fromUtf8Lossy_nameBytes]

end Adding

/-! ## Deleting -/

section Deleting

variable {pre : List (BitVec 8)} {before after rs : List DirRecord} {p r : DirRecord} {fuel : ℕ}
  {name : Name}

/-- The record in front of a deleted one takes its bytes. -/
theorem merge_record {post : List (BitVec 8)} (hlen : p.bytes.length + r.bytes.length < 2 ^ 16) :
    ∃ merged : DirRecord, merged.entry = { p.entry with recLen := p.entry.recLen + r.entry.recLen } ∧
      merged.bytes.length = p.bytes.length + r.bytes.length ∧
      { p.entry with recLen := p.entry.recLen + r.entry.recLen }.writeToMem
        (pre ++ (p.bytes ++ (r.bytes ++ post))) pre.length (pre.length + p.bytes.length) =
          some (pre ++ (merged.bytes ++ post)) := by
  let e : Ext4DirEntry := { p.entry with recLen := p.entry.recLen + r.entry.recLen }
  have hname : e.name.length = e.nameLen.toNat := p.length_name
  have hboth : (p.bytes ++ r.bytes).length = p.bytes.length + r.bytes.length := List.length_append
  have hsum : e.recLen.toNat = (p.bytes ++ r.bytes).length := by
    change (p.entry.recLen + r.entry.recLen).toNat = _
    rw [UInt16.toNat_add, p.covers, r.covers, Nat.mod_eq_of_lt hlen, hboth]
  obtain ⟨-, hp4, hpname⟩ := p.length_bytes
  have hr4 := r.length_bytes.2.1
  have hfits : 8 + e.nameLen.toNat ≤ p.bytes.length := hpname
  obtain ⟨merged, hentry, hmlen, hwrite⟩ := @write_region pre (p.bytes ++ r.bytes) post e
    (pre.length + p.bytes.length) hname.ge (by omega) hsum (by omega) (by omega)
  rw [hboth] at hmlen
  rw [List.append_assoc] at hwrite
  exact ⟨merged, hentry.trans (stored_of_whole hname), hmlen, hwrite⟩

/-- What `delete_entry` makes of the record in front of the deleted one. -/
structure Merged (p r merged : DirRecord) : Prop where
  entry : merged.entry = { p.entry with recLen := merged.entry.recLen }
  length : merged.bytes.length = p.bytes.length + r.bytes.length

/-- What the loop of `delete_entry` does at a record behind another one. -/
theorem deleteEntryLoop_record {post : List (BitVec 8)} :
    DirContent.deleteEntryLoop (pre ++ (p.bytes ++ (r.bytes ++ post))) name (fuel + 1)
        (pre.length + p.bytes.length) pre.length =
      if r.name = name then
        ({ p.entry with recLen := p.entry.recLen + r.entry.recLen }.writeToMem
          (pre ++ (p.bytes ++ (r.bytes ++ post))) pre.length
            (pre.length + p.bytes.length)).map some
      else DirContent.deleteEntryLoop ((pre ++ p.bytes) ++ (r.bytes ++ post)) name fuel
        ((pre ++ p.bytes).length + r.bytes.length) (pre ++ p.bytes).length := by
  have hlen := r.length_bytes.1
  have hplen := p.length_bytes.1
  have hback : (pre ++ p.bytes).length - pre.length = p.entry.recLen.toNat := by
    rw [List.length_append, Nat.add_sub_cancel_left, p.covers]
  have hfront := @DirRecord.entryAt_record p pre (r.bytes ++ post)
  rw [← List.append_assoc, ← List.length_append, DirContent.deleteEntryLoop,
    if_neg (by simp only [List.length_append]; omega), DirRecord.recLenAt_record]
  simp only [Option.bind_eq_bind, Option.bind_some]
  rw [DirRecord.entryAt_record]
  simp only [Option.bind_some]
  rw [DirRecord.nameOf_entry]
  by_cases hname : r.name = name
  · rw [if_pos hname, if_pos hname, if_neg (by rw [List.length_append]; omega), hback,
      List.append_assoc, hfront]
    simp only [Option.bind_some]
    rw [Option.map_eq_bind]
    rfl
  · rw [if_neg hname, if_neg hname, r.covers]

/-- The record behind has the name: the one in front takes its bytes. -/
theorem deleteEntryLoop_found (hname : r.name = name)
    (hsum : p.bytes.length + r.bytes.length < 2 ^ 16) :
    ∃ merged, Merged p r merged ∧
      DirContent.deleteEntryLoop (pre ++ contents (p :: r :: rs)) name (fuel + 1)
        (pre.length + p.bytes.length) pre.length =
          some (some (pre ++ (merged.bytes ++ contents rs))) := by
  obtain ⟨merged, hentry, hmlen, hwrite⟩ := @merge_record pre p r (contents rs) hsum
  refine ⟨merged, ⟨by rw [hentry], hmlen⟩, ?_⟩
  rw [contents_cons, contents_cons, deleteEntryLoop_record, if_pos hname, hwrite, Option.map_some]

/-- The record behind has another name: the loop goes on. -/
theorem deleteEntryLoop_other (hname : r.name ≠ name) :
    DirContent.deleteEntryLoop (pre ++ contents (p :: r :: rs)) name (fuel + 1)
        (pre.length + p.bytes.length) pre.length =
      DirContent.deleteEntryLoop ((pre ++ p.bytes) ++ contents (r :: rs)) name fuel
        ((pre ++ p.bytes).length + r.bytes.length) (pre ++ p.bytes).length := by
  rw [contents_cons, contents_cons, deleteEntryLoop_record, if_neg hname]

/-- The first record under the name and the one in front of it are not too long for one length
field. -/
def Mergeable (name : Name) (rs : List DirRecord) : Prop :=
  ∀ before q r after, rs = before ++ q :: r :: after → (∀ b ∈ before ++ [q], b.name ≠ name) →
    r.name = name → q.bytes.length + r.bytes.length < 2 ^ 16

theorem mergeable_of_small (hsmall : ∀ r ∈ rs, r.bytes.length ≤ 4096) : Mergeable name rs := by
  rintro before q r after rfl - -
  have hq := hsmall q (by simp)
  have hr := hsmall r (by simp)
  omega

/-- The loop of `delete_entry` behind a record that has another name. -/
theorem deleteEntryLoop_contents (hfuel : rs.length ≤ fuel) (hp : p.name ≠ name)
    (hsum : Mergeable name (p :: rs)) :
    (∀ r ∈ p :: rs, r.name ≠ name) ∧
      DirContent.deleteEntryLoop (pre ++ contents (p :: rs)) name fuel
        (pre.length + p.bytes.length) pre.length = some none ∨
    ∃ before q r after merged, p :: rs = before ++ q :: r :: after ∧
      (∀ b ∈ before ++ [q], b.name ≠ name) ∧ r.name = name ∧ Merged q r merged ∧
      DirContent.deleteEntryLoop (pre ++ contents (p :: rs)) name fuel
        (pre.length + p.bytes.length) pre.length =
          some (some (pre ++ contents (before ++ merged :: after))) := by
  induction rs generalizing pre fuel p with
  | nil =>
    refine Or.inl ⟨by simpa using hp, ?_⟩
    cases fuel with
    | zero => rfl
    | succ fuel => rw [DirContent.deleteEntryLoop, if_pos (by simp)]
  | cons r rs ih =>
    obtain ⟨fuel, rfl⟩ : ∃ f, fuel = f + 1 := ⟨fuel - 1, by rw [List.length_cons] at hfuel; omega⟩
    have hfuel' : rs.length ≤ fuel := by
      rw [List.length_cons] at hfuel
      omega
    by_cases hname : r.name = name
    · have hlt := hsum [] p r rs rfl (by simpa using hp) hname
      obtain ⟨merged, hmerged, hloop⟩ := @deleteEntryLoop_found pre rs p r fuel name hname hlt
      exact Or.inr ⟨[], p, r, rs, merged, rfl, by simpa using hp, hname, hmerged, hloop⟩
    · rw [deleteEntryLoop_other hname]
      have hrest : Mergeable name (r :: rs) := fun before q r' after hsplit hbefore =>
        hsum (p :: before) q r' after (by rw [hsplit, List.cons_append])
          (List.forall_mem_cons.mpr ⟨hp, hbefore⟩)
      rcases @ih (pre ++ p.bytes) r fuel hfuel' hname hrest with ⟨hall, hloop⟩ |
          ⟨before, q, r', after, merged, hsplit, hbefore, hr', hmerged, hloop⟩
      · exact Or.inl ⟨List.forall_mem_cons.mpr ⟨hp, hall⟩, hloop⟩
      · refine Or.inr ⟨p :: before, q, r', after, merged, by rw [hsplit, List.cons_append],
          List.forall_mem_cons.mpr ⟨hp, hbefore⟩, hr', hmerged, ?_⟩
        rw [hloop, List.cons_append, contents_cons, List.append_assoc]

/-- What the loop of `delete_entry` does at the first record. -/
theorem deleteEntryLoop_front {post : List (BitVec 8)} :
    DirContent.deleteEntryLoop (r.bytes ++ post) name (fuel + 1) 0 0 =
      if r.name = name then
        ({ r.entry with inodeNum := 0 }.writeToMem (r.bytes ++ post) 0 r.bytes.length).map some
      else DirContent.deleteEntryLoop (r.bytes ++ post) name fuel r.bytes.length 0 := by
  have hlen := r.length_bytes.1
  have hstart := @DirRecord.recLenAt_record r [] post
  have hentry := @DirRecord.entryAt_record r [] post
  rw [List.nil_append, List.length_nil] at hstart hentry
  rw [DirContent.deleteEntryLoop, if_neg (by rw [List.length_append]; omega), hstart]
  simp only [Option.bind_eq_bind, Option.bind_some]
  rw [hentry]
  simp only [Option.bind_some, if_true]
  rw [DirRecord.nameOf_entry, Nat.zero_add, r.covers, Option.map_eq_bind]
  rfl

/-- **`delete_entry`** marks the record with the name free when it is the first one, and else
gives its bytes to the record in front of it. -/
theorem deleteEntry_records (hsum : Mergeable name rs) :
    (∀ r ∈ rs, r.name ≠ name) ∧ DirContent.deleteEntry (contents rs) name = some none ∨
    (∃ r after dead, rs = r :: after ∧ r.name = name ∧
      dead.entry = { r.entry with inodeNum := 0 } ∧ dead.bytes.length = r.bytes.length ∧
        DirContent.deleteEntry (contents rs) name = some (some (contents (dead :: after)))) ∨
    ∃ before q r after merged, rs = before ++ q :: r :: after ∧
      (∀ b ∈ before ++ [q], b.name ≠ name) ∧ r.name = name ∧ Merged q r merged ∧
      DirContent.deleteEntry (contents rs) name =
        some (some (contents (before ++ merged :: after))) := by
  cases rs with
  | nil => exact Or.inl ⟨by simp, rfl⟩
  | cons r rs =>
    have hlen := r.length_bytes.1
    have hfuel := length_contents_le rs
    obtain ⟨fuel, hf⟩ : ∃ f, (contents (r :: rs)).length = f + 1 :=
      ⟨(contents (r :: rs)).length - 1, by rw [contents_cons, List.length_append]; omega⟩
    have hfuel' : rs.length ≤ fuel := by
      rw [contents_cons, List.length_append] at hf
      omega
    unfold DirContent.deleteEntry
    rw [hf, contents_cons, deleteEntryLoop_front]
    by_cases hname : r.name = name
    · refine Or.inr (Or.inl ?_)
      obtain ⟨dead, hentry, hdead, hwrite⟩ := @write_over_record [] (contents rs)
        { r.entry with inodeNum := 0 } r rfl rfl rfl
      rw [List.nil_append, List.nil_append, List.length_nil, Nat.zero_add] at hwrite
      exact ⟨r, rs, dead, rfl, hname, hentry, hdead, by rw [if_pos hname, hwrite]; rfl⟩
    · have hloop := @deleteEntryLoop_contents [] rs r fuel name hfuel' hname hsum
      rw [List.length_nil, List.nil_append, contents_cons, Nat.zero_add] at hloop
      rw [if_neg hname]
      exact hloop.imp_right Or.inr

/-- Records of one block are short enough. -/
theorem deleteEntry_contents (hsmall : ∀ r ∈ rs, r.bytes.length ≤ 4096) :
    (∀ r ∈ rs, r.name ≠ name) ∧ DirContent.deleteEntry (contents rs) name = some none ∨
    (∃ r after dead, rs = r :: after ∧ r.name = name ∧
      dead.entry = { r.entry with inodeNum := 0 } ∧ dead.bytes.length = r.bytes.length ∧
        DirContent.deleteEntry (contents rs) name = some (some (contents (dead :: after)))) ∨
    ∃ before q r after merged, rs = before ++ q :: r :: after ∧
      (∀ b ∈ before ++ [q], b.name ≠ name) ∧ r.name = name ∧ Merged q r merged ∧
      DirContent.deleteEntry (contents rs) name =
        some (some (contents (before ++ merged :: after))) :=
  deleteEntry_records (mergeable_of_small hsmall)

end Deleting

/-! ## Changing -/

section Changing

variable {pre post : List (BitVec 8)} {r : DirRecord} {rs : List DirRecord} {fuel : ℕ} {name : Name}
  {newInodeNum : UInt32} {newFileType : UInt8}

/-- What the loop of `set_entry` does at a record. -/
theorem setEntryLoop_record :
    DirContent.setEntryLoop (pre ++ (r.bytes ++ post)) name newInodeNum newFileType (fuel + 1)
        pre.length =
      if r.name = name then
        ({ r.entry with inodeNum := newInodeNum, fileType := newFileType }.writeToMem
          (pre ++ (r.bytes ++ post)) pre.length (pre.length + r.bytes.length)).map .ok
      else DirContent.setEntryLoop ((pre ++ r.bytes) ++ post) name newInodeNum newFileType fuel
        (pre ++ r.bytes).length := by
  have hlen := r.length_bytes.1
  rw [DirContent.setEntryLoop, if_neg (by simp only [List.length_append]; omega),
    DirRecord.recLenAt_record]
  simp only [Option.bind_eq_bind, Option.bind_some]
  rw [DirRecord.entryAt_record]
  simp only [Option.bind_some]
  rw [DirRecord.nameOf_entry, r.covers, List.append_assoc, List.length_append, Option.map_eq_bind]
  rfl

theorem setEntryLoop_contents (hfuel : rs.length ≤ fuel) :
    (∀ r ∈ rs, r.name ≠ name) ∧
      DirContent.setEntryLoop (pre ++ contents rs) name newInodeNum newFileType fuel pre.length =
        some (.error "Entry not found") ∨
    ∃ before r after new, rs = before ++ r :: after ∧ (∀ b ∈ before, b.name ≠ name) ∧
      r.name = name ∧ new.entry = { r.entry with inodeNum := newInodeNum, fileType := newFileType } ∧
      new.bytes.length = r.bytes.length ∧
      DirContent.setEntryLoop (pre ++ contents rs) name newInodeNum newFileType fuel pre.length =
        some (.ok (pre ++ contents (before ++ new :: after))) := by
  induction rs generalizing pre fuel with
  | nil =>
    refine Or.inl ⟨by simp, ?_⟩
    cases fuel with
    | zero => rfl
    | succ fuel => rw [DirContent.setEntryLoop, if_pos (by simp)]
  | cons r rs ih =>
    obtain ⟨fuel, rfl⟩ : ∃ f, fuel = f + 1 := ⟨fuel - 1, by rw [List.length_cons] at hfuel; omega⟩
    have hfuel' : rs.length ≤ fuel := by
      rw [List.length_cons] at hfuel
      omega
    rw [contents_cons, setEntryLoop_record]
    by_cases hname : r.name = name
    · obtain ⟨new, hentry, hlen, hwrite⟩ := @write_over_record pre (contents rs)
        { r.entry with inodeNum := newInodeNum, fileType := newFileType } r rfl rfl rfl
      refine Or.inr ⟨[], r, rs, new, rfl, by simp, hname, hentry, hlen, ?_⟩
      rw [if_pos hname, hwrite]
      rfl
    · rw [if_neg hname]
      rcases @ih (pre ++ r.bytes) fuel hfuel' with ⟨hall, hloop⟩ |
        ⟨before, q, after, new, hsplit, hbefore, hq, hentry, hlen, hloop⟩
      · exact Or.inl ⟨List.forall_mem_cons.mpr ⟨hname, hall⟩, hloop⟩
      · refine Or.inr ⟨r :: before, q, after, new, by rw [hsplit, List.cons_append],
          List.forall_mem_cons.mpr ⟨hname, hbefore⟩, hq, hentry, hlen, ?_⟩
        rw [hloop, List.cons_append, contents_cons, List.append_assoc pre]

/-- **`set_entry` gives the first record with the name another inode and type.** -/
theorem setEntry_contents :
    (∀ r ∈ rs, r.name ≠ name) ∧ DirContent.setEntry (contents rs) name newInodeNum newFileType =
      some (.error "Entry not found") ∨
    ∃ before r after new, rs = before ++ r :: after ∧ (∀ b ∈ before, b.name ≠ name) ∧
      r.name = name ∧ new.entry = { r.entry with inodeNum := newInodeNum, fileType := newFileType } ∧
      new.bytes.length = r.bytes.length ∧
      DirContent.setEntry (contents rs) name newInodeNum newFileType =
        some (.ok (contents (before ++ new :: after))) :=
  @setEntryLoop_contents [] rs _ name newInodeNum newFileType (length_contents_le rs)

end Changing

end QuackOS.Ext4
