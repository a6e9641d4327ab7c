import QuackOS.Ext4.DirEdits
import QuackOS.Lib.Fuel

/-!
# Scans of damaged directories

The scans of `block_op.rs` on any bytes at all.  The bytes are some records and a tail that does
not start with one; what a scan does when it comes to the tail differs from one to the other.

* `Torn`, `exists_contents` — the tail, and that all bytes are records and a tail;
* `DirScan` — the five scans, with `Ends` for a scan that comes to a result;
* `findLoop_settles` to `setEntryLoop_settles` — each loop, record by record;
* `DirScan.ends_iff` — when each of them ends without a panic.
-/

namespace QuackOS.Ext4

open Buffer Slice Fuel

variable {pre post tail content : List (BitVec 8)} {r p : DirRecord} {rs : List DirRecord} {name : Name}
  {n : UInt16}

/-! ## Records and a tail -/

/-- The bytes do not start with a record. -/
def Torn (tail : List (BitVec 8)) : Prop := ∀ r : DirRecord, ¬ r.bytes <+: tail

/-- The length field of the tail reaches past the end. -/
def Overruns (tail : List (BitVec 8)) : Prop :=
  ∃ n, DirContent.recLenAt tail 0 = some n ∧ tail.length < n.toNat

/-- The length field of the tail does not, so that the parser is asked and refuses. -/
def Refused (tail : List (BitVec 8)) : Prop :=
  ∃ n, DirContent.recLenAt tail 0 = some n ∧ n.toNat ≤ tail.length

/-- **All bytes are records and a tail.** -/
theorem exists_contents (content : List (BitVec 8)) :
    ∃ rs tail, content = contents rs ++ tail ∧ Torn tail := by
  induction hk : content.length using Nat.strong_induction_on generalizing content with
  | _ k ih =>
    by_cases h : ∃ r : DirRecord, r.bytes <+: content
    · obtain ⟨r, rest, rfl⟩ := h
      have hlen := r.length_bytes.1
      rw [List.length_append] at hk
      obtain ⟨rs, tail, rfl, htorn⟩ := ih rest.length (by omega) rest rfl
      exact ⟨r :: rs, tail, by rw [contents_cons, List.append_assoc], htorn⟩
    · exact ⟨[], content, rfl, fun r hr => h ⟨r, hr⟩⟩

theorem recLenAt_append (bs : List (BitVec 8)) :
    DirContent.recLenAt (pre ++ bs) pre.length = DirContent.recLenAt bs 0 := by
  have hbyte (i : ℕ) : toBuffer (pre ++ bs) (pre.length + i) = toBuffer bs i :=
    DirRecord.getD_append_right'
  have hfield : u16At (toBuffer (pre ++ bs)) (pre.length + 4) = u16At (toBuffer bs) (0 + 4) := by
    unfold u16At
    simp only [getLe, Nat.add_assoc, Nat.reduceAdd, hbyte]
  unfold DirContent.recLenAt
  rw [hfield, List.length_append]
  by_cases h : 5 < bs.length
  · rw [if_pos (by omega), if_pos (by omega)]
  · rw [if_neg (by omega), if_neg (by omega)]

theorem entryAt_append (bs : List (BitVec 8)) (k : ℕ) :
    DirContent.entryAt (pre ++ bs) pre.length k = DirContent.entryAt bs 0 k := by
  unfold DirContent.entryAt
  rw [List.drop_left, List.drop_zero, List.length_append]
  by_cases h : k ≤ bs.length
  · rw [if_pos (by omega), if_pos (by omega)]
  · rw [if_neg (by omega), if_neg (by omega)]

/-- **The parser refuses the tail.** -/
theorem Torn.refused (ht : Torn tail) (hn : DirContent.recLenAt tail 0 = some n)
    (hle : n.toNat ≤ tail.length) :
    ∃ msg, DirContent.entryAt tail 0 n.toNat = some (.error msg) := by
  rw [DirContent.entryAt, if_pos (by omega), List.drop_zero]
  cases hparse : Ext4DirEntry.tryFrom (tail.take n.toNat) with
  | error msg => exact ⟨msg, rfl⟩
  | ok e =>
    -- it would be a record
    obtain ⟨h8, -, -, -, -, -, hfield⟩ := Ext4DirEntry.tryFrom_spec hparse
    have hlen : (tail.take n.toNat).length = n.toNat := by
      rw [List.length_take, Nat.min_eq_left hle]
    have hbyte : ∀ i < 8, toBuffer (tail.take n.toNat) i = toBuffer tail i := by
      intro i hi
      unfold toBuffer
      rw [List.getD_eq_getElem?_getD, List.getD_eq_getElem?_getD, List.getElem?_take_of_lt (by omega)]
    have hn' : u16At (toBuffer tail) (0 + 4) = n := by
      unfold DirContent.recLenAt at hn
      split at hn
      · exact Option.some.inj hn
      · cases hn
    have hsame : e.recLen = n := by
      refine (hfield.trans ?_).trans hn'
      unfold u16At
      simp only [getLe, Nat.zero_add, Nat.reduceAdd]
      rw [hbyte 4 (by omega), hbyte 5 (by omega)]
    have hcovers : e.recLen.toNat = (tail.take n.toNat).length := by rw [hlen, hsame]
    exact absurd (List.take_prefix n.toNat tail) (ht ⟨_, e, hparse, hcovers⟩)

/-- What a scan can come to behind the records. -/
inductive TailKind (tail : List (BitVec 8)) : Prop
  | done (h : tail = [])
  | short (h : tail ≠ []) (hnone : DirContent.recLenAt tail 0 = none)
  | overrun (h : tail ≠ []) (n : UInt16) (hn : DirContent.recLenAt tail 0 = some n)
    (hlt : tail.length < n.toNat) (hentry : DirContent.entryAt tail 0 n.toNat = none)
  | refused (h : tail ≠ []) (n : UInt16) (hn : DirContent.recLenAt tail 0 = some n)
    (hle : n.toNat ≤ tail.length) (msg : String)
    (hentry : DirContent.entryAt tail 0 n.toNat = some (.error msg))

theorem Torn.kind (ht : Torn tail) : TailKind tail := by
  by_cases hnil : tail = []
  · exact .done hnil
  · cases hn : DirContent.recLenAt tail 0 with
    | none => exact .short hnil hn
    | some n =>
      by_cases hle : n.toNat ≤ tail.length
      · obtain ⟨msg, hmsg⟩ := ht.refused hn hle
        exact .refused hnil n hn hle msg hmsg
      · exact .overrun hnil n hn (by omega) (by rw [DirContent.entryAt, if_neg (by omega)])

theorem not_overruns_of_short (h : DirContent.recLenAt tail 0 = none) : ¬ Overruns tail := by
  rintro ⟨n, hn, -⟩
  cases h.symm.trans hn

theorem overruns_iff (h : DirContent.recLenAt tail 0 = some n) :
    Overruns tail ↔ tail.length < n.toNat := by
  constructor
  · rintro ⟨k, hk, hlt⟩
    cases h.symm.trans hk
    exact hlt
  · exact fun hlt => ⟨n, h, hlt⟩

/-- A loop given as much fuel as there are bytes left has a round for them. -/
theorem round_of_ne_nil (hne : tail ≠ []) (pre : List (BitVec 8)) {fuel : ℕ}
    (hfuel : tail.length ≤ fuel) : ∃ m, fuel = m + 1 ∧ ¬ (pre ++ tail).length ≤ pre.length := by
  have hlen := List.length_pos_of_ne_nil hne
  exact ⟨fuel - 1, by omega, by rw [List.length_append]; omega⟩

/-- Behind a record there is less left than from it on. -/
theorem length_tail_lt (r : DirRecord) (rs : List DirRecord) (tail : List (BitVec 8)) :
    (contents rs ++ tail).length < (contents (r :: rs) ++ tail).length := by
  have hlen := r.length_bytes.1
  simp only [contents_cons, List.length_append]
  omega

/-! ## Finding -/

theorem findLoop_tail (ht : Torn tail) :
    Settles (fun fuel => DirContent.findLoop (pre ++ tail) name fuel pre.length) tail.length
      (tail = [] ∨ Overruns tail) := by
  cases ht.kind with
  | done h =>
    refine .result (.inl h) (r := none) fun fuel _ => ?_
    cases fuel with
    | zero => rfl
    | succ m => rw [DirContent.findLoop, if_pos (by rw [h, List.append_nil])]
  | short h hnone =>
    refine .panic (by rw [not_or]; exact ⟨h, not_overruns_of_short hnone⟩) fun fuel hfuel => ?_
    obtain ⟨m, rfl, hlt⟩ := round_of_ne_nil h pre hfuel
    rw [DirContent.findLoop, if_neg hlt, recLenAt_append, hnone]
  | overrun h n hn hlt hentry =>
    refine .result (.inr ⟨n, hn, hlt⟩) (r := none) fun fuel hfuel => ?_
    obtain ⟨m, rfl, hlen⟩ := round_of_ne_nil h pre hfuel
    rw [DirContent.findLoop, if_neg hlen, recLenAt_append, hn]
    dsimp only
    rw [entryAt_append, hentry]
  | refused h n hn hle msg hentry =>
    refine .panic (by rw [not_or, overruns_iff hn]; exact ⟨h, by omega⟩) fun fuel hfuel => ?_
    obtain ⟨m, rfl, hlen⟩ := round_of_ne_nil h pre hfuel
    rw [DirContent.findLoop, if_neg hlen, recLenAt_append, hn]
    dsimp only
    rw [entryAt_append, hentry]

theorem findLoop_settles (ht : Torn tail) :
    Settles (fun fuel => DirContent.findLoop (pre ++ (contents rs ++ tail)) name fuel pre.length)
      (contents rs ++ tail).length ((∃ r ∈ rs, r.name = name) ∨ tail = [] ∨ Overruns tail) := by
  induction rs generalizing pre with
  | nil => exact (findLoop_tail ht).congr (by simp)
  | cons r rs ih =>
    have hlt := length_tail_lt r rs tail
    by_cases hname : r.name = name
    · refine .result (.inl ⟨r, List.mem_cons_self .., hname⟩) (r := some r.entry) fun fuel hfuel => ?_
      obtain ⟨m, rfl⟩ : ∃ m, fuel = m + 1 := ⟨fuel - 1, by omega⟩
      rw [contents_cons, List.append_assoc, findLoop_record, if_pos hname]
    · refine (@ih (pre ++ r.bytes)).step hlt (fun fuel => ?_) |>.congr ?_
      · rw [contents_cons, List.append_assoc, findLoop_record, if_neg hname]
      · rw [List.exists_mem_cons_iff, or_iff_right hname]

/-! ## Listing -/

/-- The length of a listing of some records. -/
def listedLen (rs : List DirRecord) : ℕ := ((rs.filter DirRecord.live).map DirRecord.direntLen).sum

theorem listedLen_cons (r : DirRecord) (rs : List DirRecord) :
    listedLen (r :: rs) = (if r.live then r.direntLen else 0) + listedLen rs := by
  unfold listedLen
  cases hlive : r.live with
  | true => rw [List.filter_cons_of_pos hlive, List.map_cons, List.sum_cons, if_pos rfl]
  | false =>
    rw [List.filter_cons_of_neg (by simp [hlive]), if_neg Bool.false_ne_true, Nat.zero_add]

theorem getdentsLoop_tail {bufLen : ℕ} {buf : List (BitVec 8)} (ht : Torn tail) :
    Settles (fun fuel => DirContent.getdentsLoop (pre ++ tail) bufLen fuel pre.length buf)
      tail.length
      (DirContent.recLenAt tail 0 = none ∨ DirContent.recLenAt tail 0 = some 0 ∨ Overruns tail) := by
  have hstop (h : DirContent.recLenAt tail 0 = none) (fuel : ℕ) :
      DirContent.getdentsLoop (pre ++ tail) bufLen fuel pre.length buf = some (pre.length, buf) := by
    cases fuel with
    | zero => rfl
    | succ m => rw [DirContent.getdentsLoop, recLenAt_append, h]
  cases ht.kind with
  | done h =>
    have hnone : DirContent.recLenAt tail 0 = none := by rw [h]; rfl
    exact .result (.inl hnone) fun fuel _ => hstop hnone fuel
  | short h hnone => exact .result (.inl hnone) fun fuel _ => hstop hnone fuel
  | overrun h n hn hlt hentry =>
    refine .result (.inr (.inr ⟨n, hn, hlt⟩)) (r := (pre.length, buf)) fun fuel hfuel => ?_
    obtain ⟨m, rfl, -⟩ := round_of_ne_nil h pre hfuel
    rw [DirContent.getdentsLoop, recLenAt_append, hn]
    dsimp only
    rw [entryAt_append, hentry, ite_self]
  | refused h n hn hle msg hentry =>
    by_cases hzero : n = 0
    · refine .result (.inr (.inl (by rw [hn, hzero]))) (r := (pre.length, buf)) fun fuel hfuel => ?_
      obtain ⟨m, rfl, -⟩ := round_of_ne_nil h pre hfuel
      rw [DirContent.getdentsLoop, recLenAt_append, hn]
      dsimp only
      rw [if_pos hzero]
    · refine .panic ?_ fun fuel hfuel => ?_
      · rw [overruns_iff hn, hn, Option.some.injEq]
        rintro (h0 | h0 | hlt)
        · cases h0
        · exact hzero h0
        · omega
      · obtain ⟨m, rfl, -⟩ := round_of_ne_nil h pre hfuel
        rw [DirContent.getdentsLoop, recLenAt_append, hn]
        dsimp only
        rw [if_neg hzero, entryAt_append, hentry]

/-- The loop of `getdents` does not come to the tail when the buffer is full before. -/
theorem getdentsLoop_settles {bufLen : ℕ} {buf : List (BitVec 8)} (ht : Torn tail)
    (hbuf : buf.length ≤ bufLen) :
    Settles (fun fuel => DirContent.getdentsLoop (pre ++ (contents rs ++ tail)) bufLen fuel
        pre.length buf) (contents rs ++ tail).length
      (bufLen < buf.length + listedLen rs ∨
        DirContent.recLenAt tail 0 = none ∨ DirContent.recLenAt tail 0 = some 0 ∨ Overruns tail) := by
  induction rs generalizing pre buf with
  | nil =>
    refine (getdentsLoop_tail ht).congr ?_
    have hroom : ¬ bufLen < buf.length + listedLen [] := Nat.not_lt.mpr hbuf
    exact (or_iff_right hroom).symm
  | cons r rs ih =>
    have hlt := length_tail_lt r rs tail
    by_cases hdead : r.entry.inodeNum = 0
    · refine (@ih (pre ++ r.bytes) buf hbuf).step hlt (fun fuel => ?_) |>.congr ?_
      · rw [contents_cons, List.append_assoc, getdentsLoop_record, if_pos hdead]
      · rw [listedLen_cons, if_neg (by simpa [DirRecord.live] using hdead), Nat.zero_add]
    · have hlength : listedLen (r :: rs) = r.direntLen + listedLen rs := by
        rw [listedLen_cons, if_pos (by simpa [DirRecord.live] using hdead)]
      by_cases hfull : bufLen < buf.length + r.direntLen
      · refine .result (.inl (by omega)) (r := (pre.length, buf)) fun fuel hfuel => ?_
        obtain ⟨m, rfl⟩ : ∃ m, fuel = m + 1 := ⟨fuel - 1, by omega⟩
        rw [contents_cons, List.append_assoc, getdentsLoop_record, if_neg hdead, if_pos hfull]
      · have hbuf' : (buf ++ DirContent.linuxDirent r.entry (pre ++ r.bytes).length).length =
            buf.length + r.direntLen := by rw [List.length_append, length_linuxDirent]
        refine (@ih (pre ++ r.bytes) (buf ++ DirContent.linuxDirent r.entry
          (pre ++ r.bytes).length) (by omega)).step hlt (fun fuel => ?_) |>.congr ?_
        · rw [contents_cons, List.append_assoc, getdentsLoop_record, if_neg hdead, if_neg hfull]
        · rw [hbuf', hlength, Nat.add_assoc]

/-! ## Adding -/

/-- The first record that takes the entry, if there is one, has the room for it that the bytes
written need: the length is cut to 16 bits where records are compared, and to 8 where the name is
written. -/
def AddFits (name : Name) (tail : List (BitVec 8)) : List DirRecord → Prop
  | [] => True
  | r :: rs =>
    if r.takes name then
      r.used + 8 + (nameBytes name).length % 256 ≤ (contents (r :: rs) ++ tail).length
    else AddFits name tail rs

section Adding

variable {inodeNum : UInt32} {fileType : UInt8}

/-- `add_entry` checks what it reads: the tail is an error, and never a panic. -/
theorem addEntryLoop_tail (ht : Torn tail) :
    Settles (fun fuel => DirContent.addEntryLoop (pre ++ tail) name inodeNum fileType fuel
      pre.length) tail.length True := by
  have hfield (n : UInt16) (hn : DirContent.recLenAt tail 0 = some n) :
      u16At (toBuffer (pre ++ tail)) (pre.length + 4) = n := by
    have h := (@recLenAt_append pre tail).trans hn
    unfold DirContent.recLenAt at h
    split at h
    · exact Option.some.inj h
    · cases h
  by_cases hshort : tail ≠ [] ∧ (pre ++ tail).length < pre.length + 8
  · refine .result trivial (r := .error "Invalid directory entry") fun fuel hfuel => ?_
    obtain ⟨m, rfl, hlen⟩ := round_of_ne_nil hshort.1 pre hfuel
    rw [DirContent.addEntryLoop, if_neg hlen, if_pos hshort.2]
  · cases ht.kind with
    | done h =>
      refine .result trivial (r := .error "No space left in directory block") fun fuel _ => ?_
      cases fuel with
      | zero => rfl
      | succ m => rw [DirContent.addEntryLoop, if_pos (by rw [h, List.append_nil])]
    | short h hnone =>
      refine absurd ⟨h, ?_⟩ hshort
      unfold DirContent.recLenAt at hnone
      split at hnone
      · cases hnone
      · rw [List.length_append]
        omega
    | overrun h n hn hlt hentry =>
      refine .result trivial (r := .error "Invalid rec_len") fun fuel hfuel => ?_
      obtain ⟨m, rfl, hlen⟩ := round_of_ne_nil h pre hfuel
      rw [DirContent.addEntryLoop, if_neg hlen, if_neg fun hlt => hshort ⟨h, hlt⟩]
      dsimp only
      rw [hfield n hn, entryAt_append, hentry, ite_self]
    | refused h n hn hle msg hentry =>
      refine .result trivial (r := if n < 8 then .error "Invalid rec_len" else
        .error "Corrupted directory entry") fun fuel hfuel => ?_
      obtain ⟨m, rfl, hlen⟩ := round_of_ne_nil h pre hfuel
      rw [DirContent.addEntryLoop, if_neg hlen, if_neg fun hlt => hshort ⟨h, hlt⟩]
      dsimp only
      rw [hfield n hn, entryAt_append, hentry, apply_ite some]

/-- The write of an entry into a free record. -/
theorem place_free_iff (hdead : r.entry.inodeNum = 0) (htakes : r.takes name = true) {fuel : ℕ} :
    DirContent.addEntryLoop (pre ++ (r.bytes ++ post)) name inodeNum fileType (fuel + 1)
        pre.length ≠ none ↔
      8 + (nameBytes name).length % 256 ≤ (r.bytes ++ post).length := by
  obtain ⟨hcut, hname⟩ := nameLen_newEntry name inodeNum r.entry.recLen fileType
  rw [addEntryLoop_record, if_pos ⟨hdead, (DirRecord.takes_dead_iff hdead).mp htakes⟩, Ne,
    Option.map_eq_none_iff, ← Ne, writeToMem_ne_none hname, hcut, List.length_append]
  omega

/-- The write of an entry behind the name of one in use. -/
theorem place_behind_iff (hlive : r.entry.inodeNum ≠ 0) (htakes : r.takes name = true) {fuel : ℕ} :
    DirContent.addEntryLoop (pre ++ (r.bytes ++ post)) name inodeNum fileType (fuel + 1)
        pre.length ≠ none ↔
      (DirContent.neededLen r.entry.nameLen.toNat).toNat + 8 + (nameBytes name).length % 256 ≤
        (r.bytes ++ post).length := by
  let e : Ext4DirEntry := { r.entry with recLen := DirContent.neededLen r.entry.nameLen.toNat }
  have hname₁ : e.nameLen.toNat ≤ e.name.length := r.length_name.ge
  have hfits : 8 + e.nameLen.toNat ≤ r.bytes.length := r.length_bytes.2.2
  obtain ⟨content₁, hwrite⟩ : ∃ content₁, e.writeToMem (pre ++ (r.bytes ++ post)) pre.length
      (pre ++ (r.bytes ++ post)).length = some content₁ :=
    Option.ne_none_iff_exists'.mp ((writeToMem_ne_none hname₁).mpr (by
      simp only [List.length_append]
      omega))
  have hlen := length_writeToMem hwrite
  obtain ⟨hcut, hname⟩ := nameLen_newEntry name inodeNum
    (r.entry.recLen - DirContent.neededLen r.entry.nameLen.toNat) fileType
  rw [addEntryLoop_record, if_neg fun hdead => hlive hdead.1,
    if_pos ⟨hlive, (DirRecord.takes_live_iff hlive).mp htakes⟩]
  change (Option.bind (e.writeToMem _ _ _) _ ≠ none) ↔ _
  have hbind (o : Option (List (BitVec 8))) :
      (o.bind fun bs => (some (.ok bs) : Option (Except String (List (BitVec 8))))) ≠ none ↔
        o ≠ none := by
    cases o <;> simp
  rw [hwrite, Option.bind_some, ← hlen]
  refine (hbind _).trans ?_
  rw [writeToMem_ne_none hname, hcut, hlen, List.length_append]
  omega

/-- A record that takes the entry is the last one looked at. -/
theorem addEntryLoop_last (htakes : r.takes name = true) (fuel : ℕ) :
    DirContent.addEntryLoop (pre ++ (r.bytes ++ post)) name inodeNum fileType (fuel + 1)
        pre.length =
      DirContent.addEntryLoop (pre ++ (r.bytes ++ post)) name inodeNum fileType 1 pre.length := by
  have hmore := @addEntryLoop_record pre r fuel name inodeNum fileType post
  have hone := @addEntryLoop_record pre r 0 name inodeNum fileType post
  by_cases hino : r.entry.inodeNum = 0
  · have hfree := And.intro hino ((DirRecord.takes_dead_iff hino).mp htakes)
    rw [if_pos hfree] at hmore hone
    rw [hmore, hone]
  · have hbehind := And.intro hino ((DirRecord.takes_live_iff hino).mp htakes)
    rw [if_neg fun hdead => hino hdead.1, if_pos hbehind] at hmore hone
    rw [hmore, hone]

theorem addEntryLoop_settles (ht : Torn tail) :
    Settles (fun fuel => DirContent.addEntryLoop (pre ++ (contents rs ++ tail)) name inodeNum
      fileType fuel pre.length) (contents rs ++ tail).length (AddFits name tail rs) := by
  induction rs generalizing pre with
  | nil => exact addEntryLoop_tail ht
  | cons r rs ih =>
    have hlt := length_tail_lt r rs tail
    rw [AddFits, DirRecord.used]
    cases htakes : r.takes name with
    | false =>
      rw [if_neg Bool.false_ne_true]
      refine (@ih (pre ++ r.bytes)).step hlt fun fuel => ?_
      rw [contents_cons, List.append_assoc, addEntryLoop_skips htakes]
    | true =>
      rw [if_pos rfl]
      refine ⟨DirContent.addEntryLoop (pre ++ (r.bytes ++ (contents rs ++ tail))) name inodeNum
        fileType 1 pre.length, fun fuel hfuel => ?_, ?_⟩
      · obtain ⟨m, rfl⟩ : ∃ m, fuel = m + 1 := ⟨fuel - 1, by omega⟩
        rw [contents_cons, List.append_assoc]
        exact addEntryLoop_last htakes m
      · rw [contents_cons, List.append_assoc]
        by_cases hino : r.entry.inodeNum = 0
        · rw [place_free_iff hino htakes, if_neg (by simpa [DirRecord.live] using hino),
            Nat.zero_add]
        · rw [place_behind_iff hino htakes, if_pos (by simpa [DirRecord.live] using hino)]

end Adding

/-! ## Deleting and changing -/

/-- `delete_entry` asks for more than there is of any tail. -/
theorem deleteEntryLoop_tail (ht : Torn tail) (prev : ℕ) :
    Settles (fun fuel => DirContent.deleteEntryLoop (pre ++ tail) name fuel pre.length prev)
      tail.length (tail = []) := by
  cases ht.kind with
  | done h =>
    refine .result h (r := none) fun fuel _ => ?_
    cases fuel with
    | zero => rfl
    | succ m => rw [DirContent.deleteEntryLoop, if_pos (by rw [h, List.append_nil])]
  | short h hnone =>
    refine .panic h fun fuel hfuel => ?_
    obtain ⟨m, rfl, hlen⟩ := round_of_ne_nil h pre hfuel
    rw [DirContent.deleteEntryLoop, if_neg hlen, recLenAt_append, hnone]
    rfl
  | overrun h n hn hlt hentry =>
    refine .panic h fun fuel hfuel => ?_
    obtain ⟨m, rfl, hlen⟩ := round_of_ne_nil h pre hfuel
    rw [DirContent.deleteEntryLoop, if_neg hlen, recLenAt_append, hn, Option.bind_eq_bind,
      Option.bind_some, entryAt_append, hentry]
    rfl
  | refused h n hn hle msg hentry =>
    refine .panic h fun fuel hfuel => ?_
    obtain ⟨m, rfl, hlen⟩ := round_of_ne_nil h pre hfuel
    rw [DirContent.deleteEntryLoop, if_neg hlen, recLenAt_append, hn, Option.bind_eq_bind,
      Option.bind_some, entryAt_append, hentry]
    rfl

/-- A record has room for an entry with its own name. -/
theorem writeToMem_own {e : Ext4DirEntry} (hlen : e.nameLen = p.entry.nameLen)
    (hname : e.name = p.entry.name) : ∃ content', e.writeToMem (pre ++ (p.bytes ++ post)) pre.length
      (pre.length + p.bytes.length) = some content' := by
  have hwhole : e.name.length = e.nameLen.toNat := by
    rw [hname, hlen]
    exact p.length_name
  have hfits := p.length_bytes.2.2
  have hbytes := length_entryBytes hwhole
  rw [hlen] at hbytes
  rw [Ext4DirEntry.writeToMem, if_neg (by omega), blit,
    if_pos (by simp only [List.length_append]; omega)]
  exact ⟨_, rfl⟩

/-- The loop of `delete_entry` behind a record. -/
theorem deleteEntryLoop_settles (ht : Torn tail) :
    Settles (fun fuel => DirContent.deleteEntryLoop (pre ++ (p.bytes ++ (contents rs ++ tail))) name
        fuel (pre.length + p.bytes.length) pre.length)
      (contents rs ++ tail).length ((∃ r ∈ rs, r.name = name) ∨ tail = []) := by
  induction rs generalizing pre p with
  | nil =>
    have hend := @deleteEntryLoop_tail (pre ++ p.bytes) tail name ht pre.length
    rw [List.append_assoc, List.length_append] at hend
    exact hend.congr (by simp)
  | cons r rs ih =>
    have hlt := length_tail_lt r rs tail
    have hround (fuel : ℕ) := @deleteEntryLoop_record pre p r fuel name (contents rs ++ tail)
    by_cases hname : r.name = name
    · -- the bytes of the record in front have room for its own entry
      let e : Ext4DirEntry := { p.entry with recLen := p.entry.recLen + r.entry.recLen }
      obtain ⟨content', hwrite⟩ := @writeToMem_own pre (r.bytes ++ (contents rs ++ tail)) p e rfl rfl
      refine .result (.inl ⟨r, List.mem_cons_self .., hname⟩) (r := some content') fun fuel hfuel => ?_
      obtain ⟨m, rfl⟩ : ∃ m, fuel = m + 1 := ⟨fuel - 1, by omega⟩
      rw [contents_cons, List.append_assoc, hround, if_pos hname, hwrite, Option.map_some]
    · refine (@ih (pre ++ p.bytes) r).step hlt (fun fuel => ?_) |>.congr ?_
      · rw [contents_cons, List.append_assoc, hround, if_neg hname]
      · rw [List.exists_mem_cons_iff, or_iff_right hname]

/-- The loop of `delete_entry` from the front. -/
theorem deleteEntryLoop_settles_front (ht : Torn tail) :
    Settles (fun fuel => DirContent.deleteEntryLoop (contents rs ++ tail) name fuel 0 0)
      (contents rs ++ tail).length ((∃ r ∈ rs, r.name = name) ∨ tail = []) := by
  cases rs with
  | nil =>
    have hend := @deleteEntryLoop_tail [] tail name ht 0
    exact hend.congr (by simp)
  | cons r rs =>
    have hlt := length_tail_lt r rs tail
    have hround (fuel : ℕ) := @deleteEntryLoop_front r fuel name (contents rs ++ tail)
    by_cases hname : r.name = name
    · let e : Ext4DirEntry := { r.entry with inodeNum := 0 }
      obtain ⟨dead, -, -, hwrite⟩ := @write_over_record [] (contents rs ++ tail) e r rfl rfl rfl
      rw [List.nil_append, List.nil_append, List.length_nil, Nat.zero_add] at hwrite
      refine .result (.inl ⟨r, List.mem_cons_self .., hname⟩)
        (r := some (dead.bytes ++ (contents rs ++ tail))) fun fuel hfuel => ?_
      obtain ⟨m, rfl⟩ : ∃ m, fuel = m + 1 := ⟨fuel - 1, by omega⟩
      rw [contents_cons, List.append_assoc, hround, if_pos hname, hwrite, Option.map_some]
    · have hrest := @deleteEntryLoop_settles [] tail r rs name ht
      rw [List.length_nil, List.nil_append, Nat.zero_add] at hrest
      refine hrest.step hlt (fun fuel => ?_) |>.congr ?_
      · rw [contents_cons, List.append_assoc, hround, if_neg hname]
      · rw [List.exists_mem_cons_iff, or_iff_right hname]

section Changing

variable {newInodeNum : UInt32} {newFileType : UInt8}

/-- What the parser refuses is an error of `set_entry`; what it is not asked about is a panic. -/
theorem setEntryLoop_tail (ht : Torn tail) :
    Settles (fun fuel => DirContent.setEntryLoop (pre ++ tail) name newInodeNum newFileType fuel
      pre.length) tail.length (tail = [] ∨ Refused tail) := by
  cases ht.kind with
  | done h =>
    refine .result (.inl h) (r := .error "Entry not found") fun fuel _ => ?_
    cases fuel with
    | zero => rfl
    | succ m => rw [DirContent.setEntryLoop, if_pos (by rw [h, List.append_nil])]
  | short h hnone =>
    refine .panic ?_ fun fuel hfuel => ?_
    · rintro (h0 | ⟨n, hn, -⟩)
      · exact h h0
      · cases hnone.symm.trans hn
    · obtain ⟨m, rfl, hlen⟩ := round_of_ne_nil h pre hfuel
      rw [DirContent.setEntryLoop, if_neg hlen, recLenAt_append, hnone]
      rfl
  | overrun h n hn hlt hentry =>
    refine .panic ?_ fun fuel hfuel => ?_
    · rintro (h0 | ⟨k, hk, hle⟩)
      · exact h h0
      · cases hn.symm.trans hk
        omega
    · obtain ⟨m, rfl, hlen⟩ := round_of_ne_nil h pre hfuel
      rw [DirContent.setEntryLoop, if_neg hlen, recLenAt_append, hn, Option.bind_eq_bind,
        Option.bind_some, entryAt_append, hentry]
      rfl
  | refused h n hn hle msg hentry =>
    refine .result (.inr ⟨n, hn, hle⟩) (r := .error "DirEntry::try_from failed") fun fuel hfuel => ?_
    obtain ⟨m, rfl, hlen⟩ := round_of_ne_nil h pre hfuel
    rw [DirContent.setEntryLoop, if_neg hlen, recLenAt_append, hn, Option.bind_eq_bind,
      Option.bind_some, entryAt_append, hentry]
    rfl

theorem setEntryLoop_settles (ht : Torn tail) :
    Settles (fun fuel => DirContent.setEntryLoop (pre ++ (contents rs ++ tail)) name newInodeNum
      newFileType fuel pre.length) (contents rs ++ tail).length
      ((∃ r ∈ rs, r.name = name) ∨ tail = [] ∨ Refused tail) := by
  induction rs generalizing pre with
  | nil => exact (setEntryLoop_tail ht).congr (by simp)
  | cons r rs ih =>
    have hlt := length_tail_lt r rs tail
    have hround (fuel : ℕ) :=
      @setEntryLoop_record pre (contents rs ++ tail) r fuel name newInodeNum newFileType
    by_cases hname : r.name = name
    · let e : Ext4DirEntry := { r.entry with inodeNum := newInodeNum, fileType := newFileType }
      obtain ⟨new, -, -, hwrite⟩ := @write_over_record pre (contents rs ++ tail) e r rfl rfl rfl
      refine .result (.inl ⟨r, List.mem_cons_self .., hname⟩)
        (r := .ok (pre ++ (new.bytes ++ (contents rs ++ tail)))) fun fuel hfuel => ?_
      obtain ⟨m, rfl⟩ : ∃ m, fuel = m + 1 := ⟨fuel - 1, by omega⟩
      rw [contents_cons, List.append_assoc, hround, if_pos hname, hwrite, Option.map_some]
    · refine (@ih (pre ++ r.bytes)).step hlt (fun fuel => ?_) |>.congr ?_
      · rw [contents_cons, List.append_assoc, hround, if_neg hname]
      · rw [List.exists_mem_cons_iff, or_iff_right hname]

end Changing

/-! ## Any scan of any bytes -/

/-- The scans of a directory, with what they are given. -/
inductive DirScan
  | find (name : Name)
  | getdents (bufLen : ℕ)
  | addEntry (name : Name) (inodeNum : UInt32) (fileType : UInt8)
  | deleteEntry (name : Name)
  | setEntry (oldName : Name) (newInodeNum : UInt32) (newFileType : UInt8)

namespace DirScan

/-- The scan comes to a result within as many rounds as there are bytes: it does not go on for
ever and does not panic. -/
def Ends (content : List (BitVec 8)) : DirScan → Prop
  | find name => Comes (fun fuel => DirContent.findLoop content name fuel 0) content.length
  | getdents bufLen =>
    Comes (fun fuel => DirContent.getdentsLoop content bufLen fuel 0 []) content.length
  | addEntry name inodeNum fileType =>
    Comes (fun fuel => DirContent.addEntryLoop content name inodeNum fileType fuel 0)
      content.length
  | deleteEntry name =>
    Comes (fun fuel => DirContent.deleteEntryLoop content name fuel 0 0) content.length
  | setEntry oldName newInodeNum newFileType =>
    Comes (fun fuel => DirContent.setEntryLoop content oldName newInodeNum newFileType fuel 0)
      content.length

/-- What the scan can do with the records in front and the tail.  The scans for a name stop at the
record that has it; each knows other tails. -/
def SoundAt (rs : List DirRecord) (tail : List (BitVec 8)) : DirScan → Prop
  | find name => (∃ r ∈ rs, r.name = name) ∨ tail = [] ∨ Overruns tail
  | getdents bufLen => bufLen < listedLen rs ∨ DirContent.recLenAt tail 0 = none ∨
      DirContent.recLenAt tail 0 = some 0 ∨ Overruns tail
  | addEntry name _ _ => AddFits name tail rs
  | deleteEntry name => (∃ r ∈ rs, r.name = name) ∨ tail = []
  | setEntry oldName _ _ => (∃ r ∈ rs, r.name = oldName) ∨ tail = [] ∨ Refused tail

/-- The bytes are records and a tail that the scan can do something with. -/
def Sound (content : List (BitVec 8)) (scan : DirScan) : Prop :=
  ∃ rs tail, content = contents rs ++ tail ∧ Torn tail ∧ scan.SoundAt rs tail

theorem ends_iff_soundAt (scan : DirScan) (ht : Torn tail) :
    scan.Ends (contents rs ++ tail) ↔ scan.SoundAt rs tail := by
  cases scan with
  | find name => exact (@findLoop_settles [] tail rs name ht).comes_iff
  | getdents bufLen =>
    refine (@getdentsLoop_settles [] tail rs bufLen [] ht (Nat.zero_le _)).comes_iff.trans ?_
    rw [List.length_nil, Nat.zero_add]
    rfl
  | addEntry name inodeNum fileType =>
    exact (@addEntryLoop_settles [] tail rs name inodeNum fileType ht).comes_iff
  | deleteEntry name => exact (@deleteEntryLoop_settles_front tail rs name ht).comes_iff
  | setEntry oldName newInodeNum newFileType =>
    exact (@setEntryLoop_settles [] tail rs oldName newInodeNum newFileType ht).comes_iff

/-- **A scan ends without a panic just when it can do something with the tail.** -/
theorem ends_iff (scan : DirScan) (content : List (BitVec 8)) :
    scan.Ends content ↔ scan.Sound content := by
  constructor
  · intro hends
    obtain ⟨rs, tail, rfl, ht⟩ := exists_contents content
    exact ⟨rs, tail, rfl, ht, (scan.ends_iff_soundAt ht).mp hends⟩
  · rintro ⟨rs, tail, rfl, ht, hsound⟩
    exact (scan.ends_iff_soundAt ht).mpr hsound

/-- In a directory of zeros the first record says that it has no bytes, and the parser is asked for
it. -/
theorem findLoop_zeros {k fuel : ℕ} (hk : 6 ≤ k) :
    DirContent.findLoop (List.replicate k 0) name (fuel + 1) 0 = none := by
  have hlen : (List.replicate k (0 : BitVec 8)).length = k := List.length_replicate
  have hzero : ∀ i, toBuffer (List.replicate k 0) i = 0 := by
    intro i
    unfold toBuffer
    rw [List.getD_eq_getElem?_getD, List.getElem?_replicate]
    split <;> rfl
  have hfield : DirContent.recLenAt (List.replicate k 0) 0 = some 0 := by
    rw [DirContent.recLenAt, if_pos (by rw [hlen]; omega)]
    simp only [u16At, getLe, hzero]
    rfl
  have hentry : DirContent.entryAt (List.replicate k 0) 0 (0 : UInt16).toNat =
      some (.error "ext4 dirent: buf shorter than 8 bytes") := by
    rw [DirContent.entryAt, if_pos (by rw [UInt16.toNat_zero]; omega)]
    rfl
  rw [DirContent.findLoop, if_neg (by rw [hlen]; omega), hfield]
  dsimp only
  rw [hentry]

/-- A block of zeros is not searched to the end. -/
theorem zeros_panic : ¬ ∀ (scan : DirScan) (content : List (BitVec 8)), content.length % 4096 = 0 →
    scan.Ends content := by
  intro h
  obtain ⟨r, hr⟩ := h (.find []) (List.replicate 4096 0) (by rw [List.length_replicate])
  have hloop := hr (4095 + 1) (by rw [List.length_replicate])
  dsimp only at hloop
  rw [findLoop_zeros (by omega)] at hloop
  cases hloop

end DirScan

end QuackOS.Ext4
