import QuackOS.Ext4.Names

/-!
# Directories as lists of records

A directory that is in order is a run of records, each as long as its length field says.  The
scans of `block_op.rs` go through the bytes; here is what they do in terms of the records.

* `DirRecord`, `contents` — a record with its bytes, and the bytes of a list of records;
* `contents_injective` — bytes are records in one way only;
* `find_contents`, `getdents_contents` — the scans that only read.
-/

namespace QuackOS.Ext4

open Buffer Slice

/-! ## Records -/

namespace Ext4DirEntry

variable {bs post : List (BitVec 8)} {e : Ext4DirEntry}

/-- What the header of a record says. -/
theorem tryFrom_spec (h : tryFrom bs = .ok e) : 8 ≤ bs.length ∧ 8 ≤ e.recLen.toNat ∧
    e.recLen.toNat % 4 = 0 ∧ e.recLen.toNat ≤ bs.length ∧ 8 + e.nameLen.toNat ≤ e.recLen.toNat ∧
    e.name.length = e.nameLen.toNat ∧ e.recLen = u16At (toBuffer bs) 4 := by
  unfold tryFrom at h
  dsimp only at h
  split at h
  · cases h
  · split at h
    · cases h
    · split at h
      · cases h
      · cases h
        dsimp only
        refine ⟨by omega, by omega, by omega, by omega, by omega, ?_, rfl⟩
        rw [List.length_take, List.length_drop]
        omega

end Ext4DirEntry

/-- A record of a directory: bytes that parse, as many as the length field says. -/
structure DirRecord where
  bytes : List (BitVec 8)
  entry : Ext4DirEntry
  parsed : Ext4DirEntry.tryFrom bytes = .ok entry
  covers : entry.recLen.toNat = bytes.length

namespace DirRecord

/-- Whether a record is in use. -/
def live (r : DirRecord) : Bool := r.entry.inodeNum ≠ 0

/-- The name a record is compared by. -/
def name (r : DirRecord) : Name := DirContent.nameOf r.entry

theorem nameOf_entry (r : DirRecord) : DirContent.nameOf r.entry = r.name := rfl

variable {r s : DirRecord} {pre post : List (BitVec 8)}

theorem length_bytes (r : DirRecord) : 8 ≤ r.bytes.length ∧ r.bytes.length % 4 = 0 ∧
    8 + r.entry.nameLen.toNat ≤ r.bytes.length := by
  obtain ⟨-, h8, h4, -, hname, -⟩ := Ext4DirEntry.tryFrom_spec r.parsed
  rw [r.covers] at h8 h4 hname
  exact ⟨h8, h4, hname⟩

theorem length_name (r : DirRecord) : r.entry.name.length = r.entry.nameLen.toNat :=
  (Ext4DirEntry.tryFrom_spec r.parsed).2.2.2.2.2.1

/-- The bytes say what the entry is. -/
theorem ext_bytes (h : r.bytes = s.bytes) : r = s := by
  obtain ⟨bs, e, hp, hc⟩ := r
  obtain ⟨bs', e', hp', hc'⟩ := s
  obtain rfl : bs = bs' := h
  obtain rfl : e = e' := by
    rw [hp] at hp'
    exact Except.ok.inj hp'
  rfl

theorem getD_append_right' {i : ℕ} : (pre ++ post).getD (pre.length + i) 0 = post.getD i 0 := by
  rw [List.getD_append_right _ _ _ _ (by omega), Nat.add_sub_cancel_left]

/-- The length field of a record behind other bytes. -/
theorem u16At_record : u16At (toBuffer (pre ++ (r.bytes ++ post))) (pre.length + 4) =
    r.entry.recLen := by
  have hlen := r.length_bytes.1
  rw [(Ext4DirEntry.tryFrom_spec r.parsed).2.2.2.2.2.2]
  unfold u16At
  congr 1
  have hbyte : ∀ i < 8, toBuffer (pre ++ (r.bytes ++ post)) (pre.length + i) =
      toBuffer r.bytes i := by
    intro i hi
    unfold toBuffer
    rw [getD_append_right', List.getD_append _ _ _ _ (by omega)]
  simp only [getLe, Nat.add_assoc, Nat.reduceAdd]
  rw [hbyte 4 (by omega), hbyte 5 (by omega)]

theorem recLenAt_record : DirContent.recLenAt (pre ++ (r.bytes ++ post)) pre.length =
    some r.entry.recLen := by
  have hlen := r.length_bytes.1
  rw [DirContent.recLenAt, if_pos (by simp only [List.length_append]; omega), u16At_record]

theorem entryAt_record : DirContent.entryAt (pre ++ (r.bytes ++ post)) pre.length
    r.entry.recLen.toNat = some (.ok r.entry) := by
  rw [DirContent.entryAt, r.covers, if_pos (by simp only [List.length_append]; omega),
    List.drop_left, List.take_left, r.parsed]

end DirRecord

/-- The bytes of some records. -/
def contents (rs : List DirRecord) : List (BitVec 8) := rs.flatMap DirRecord.bytes

@[simp] theorem contents_nil : contents [] = [] := rfl

@[simp] theorem contents_cons (r : DirRecord) (rs : List DirRecord) :
    contents (r :: rs) = r.bytes ++ contents rs := rfl

@[simp] theorem contents_append (rs ss : List DirRecord) :
    contents (rs ++ ss) = contents rs ++ contents ss := List.flatMap_append

theorem length_contents_le (rs : List DirRecord) : rs.length ≤ (contents rs).length := by
  induction rs with
  | nil => exact le_rfl
  | cons r rs ih =>
    have := r.length_bytes.1
    rw [List.length_cons, contents_cons, List.length_append]
    omega

/-- **Bytes are records in one way only**: the length field of the first one says where the next
one starts. -/
theorem contents_injective : Function.Injective contents := by
  intro rs ss h
  induction rs generalizing ss with
  | nil =>
    cases ss with
    | nil => rfl
    | cons s ss =>
      have hlen := congrArg List.length h
      have := s.length_bytes.1
      rw [contents_nil, contents_cons, List.length_append, List.length_nil] at hlen
      omega
  | cons r rs ih =>
    cases ss with
    | nil =>
      have hlen := congrArg List.length h
      have := r.length_bytes.1
      rw [contents_nil, contents_cons, List.length_append, List.length_nil] at hlen
      omega
    | cons s ss =>
      rw [contents_cons, contents_cons] at h
      have hr := @DirRecord.recLenAt_record r [] (contents rs)
      have hs := @DirRecord.recLenAt_record s [] (contents ss)
      rw [List.nil_append, List.length_nil] at hr hs
      rw [h, hs] at hr
      have hlen : r.bytes.length = s.bytes.length := by
        rw [← r.covers, ← s.covers, Option.some.inj hr]
      obtain ⟨hbytes, hrest⟩ := List.append_inj h hlen
      rw [DirRecord.ext_bytes hbytes, ih hrest]

/-! ## Finding -/

section Scans

variable {pre : List (BitVec 8)} {rs : List DirRecord} {fuel : ℕ} {name : Name}

/-- What the loop of `find` does at a record. -/
theorem findLoop_record {post : List (BitVec 8)} {r : DirRecord} :
    DirContent.findLoop (pre ++ (r.bytes ++ post)) name (fuel + 1) pre.length =
      if r.name = name then some (some r.entry)
      else DirContent.findLoop ((pre ++ r.bytes) ++ post) name fuel (pre ++ r.bytes).length := by
  have hlen := r.length_bytes.1
  rw [DirContent.findLoop, if_neg (by simp only [List.length_append]; omega),
    DirRecord.recLenAt_record]
  dsimp only
  rw [DirRecord.entryAt_record]
  dsimp only
  rw [DirRecord.nameOf_entry, r.covers, List.append_assoc, List.length_append]

theorem findLoop_contents (hfuel : rs.length ≤ fuel) :
    DirContent.findLoop (pre ++ contents rs) name fuel pre.length =
      some ((rs.find? fun r => r.name = name).map DirRecord.entry) := by
  induction rs generalizing pre fuel with
  | nil =>
    cases fuel with
    | zero => rfl
    | succ fuel =>
      rw [DirContent.findLoop, if_pos (by simp)]
      rfl
  | cons r rs ih =>
    obtain ⟨fuel, rfl⟩ : ∃ f, fuel = f + 1 := ⟨fuel - 1, by rw [List.length_cons] at hfuel; omega⟩
    rw [contents_cons, findLoop_record]
    by_cases hname : r.name = name
    · rw [if_pos hname, List.find?_cons_of_pos (by simpa using hname)]
      rfl
    · rw [if_neg hname, List.find?_cons_of_neg (by simpa using hname)]
      exact ih (by rw [List.length_cons] at hfuel; omega)

/-- **`find` returns the first record with the name, in use or not.** -/
theorem find_contents : DirContent.find (contents rs) name =
    some ((rs.find? fun r => r.name = name).map DirRecord.entry) :=
  @findLoop_contents [] rs _ name (length_contents_le rs)

/-! ## Listing -/

/-- The length of the `getdents64` record for a record. -/
def DirRecord.direntLen (r : DirRecord) : ℕ := (19 + (r.entry.name.length + 1) + 7) / 8 * 8

theorem length_linuxDirent (r : DirRecord) (dOff : ℕ) :
    (DirContent.linuxDirent r.entry dOff).length = r.direntLen := by
  simp only [DirContent.linuxDirent, leList, List.length_append, List.length_map, List.length_range,
    List.length_cons, List.length_nil, List.length_replicate, DirRecord.direntLen]
  omega

/-- What `getdents` returns for some records that start at an offset. -/
def dirents : ℕ → List DirRecord → List (BitVec 8)
  | _, [] => []
  | off, r :: rs =>
    (if r.live then DirContent.linuxDirent r.entry (off + r.bytes.length) else []) ++
      dirents (off + r.bytes.length) rs

theorem dirents_append (m : ℕ) (rs ss : List DirRecord) :
    dirents m (rs ++ ss) = dirents m rs ++ dirents (m + (contents rs).length) ss := by
  induction rs generalizing m with
  | nil => rfl
  | cons r rs ih =>
    rw [List.cons_append, dirents, dirents, ih, contents_cons, List.length_append,
      List.append_assoc, Nat.add_assoc]

/-- What the loop of `getdents` does at a record. -/
theorem getdentsLoop_record {post buf : List (BitVec 8)} {r : DirRecord} {bufLen : ℕ} :
    DirContent.getdentsLoop (pre ++ (r.bytes ++ post)) bufLen (fuel + 1) pre.length buf =
      if r.entry.inodeNum = 0 then
        DirContent.getdentsLoop ((pre ++ r.bytes) ++ post) bufLen fuel (pre ++ r.bytes).length buf
      else if bufLen < buf.length + r.direntLen then some (pre.length, buf)
      else DirContent.getdentsLoop ((pre ++ r.bytes) ++ post) bufLen fuel (pre ++ r.bytes).length
        (buf ++ DirContent.linuxDirent r.entry (pre ++ r.bytes).length) := by
  have hzero : r.entry.recLen ≠ 0 := by
    intro h
    have hlen := r.length_bytes.1
    have hcovers := r.covers
    rw [h, UInt16.toNat_zero] at hcovers
    omega
  rw [DirContent.getdentsLoop, DirRecord.recLenAt_record]
  dsimp only
  rw [if_neg hzero, DirRecord.entryAt_record]
  dsimp only
  rw [length_linuxDirent, r.covers, List.append_assoc, List.length_append]

/-- The loop of `getdents` goes on until a record in use does not fit. -/
theorem getdentsLoop_contents {bufLen : ℕ} {buf : List (BitVec 8)} (hfuel : rs.length ≤ fuel)
    (hbuf : buf.length ≤ bufLen) :
    ∃ taken rest, rs = taken ++ rest ∧
      DirContent.getdentsLoop (pre ++ contents rs) bufLen fuel pre.length buf =
        some (pre.length + (contents taken).length, buf ++ dirents pre.length taken) ∧
      (buf ++ dirents pre.length taken).length ≤ bufLen ∧
      ∀ r ∈ rest.head?, r.live ∧
        bufLen < (buf ++ dirents pre.length taken).length + r.direntLen := by
  induction rs generalizing pre fuel buf with
  | nil =>
    refine ⟨[], [], rfl, ?_, by simpa [dirents] using hbuf, by simp⟩
    cases fuel with
    | zero => simp [DirContent.getdentsLoop, dirents]
    | succ fuel => simp [DirContent.getdentsLoop, DirContent.recLenAt, dirents]
  | cons r rs ih =>
    obtain ⟨fuel, rfl⟩ : ∃ f, fuel = f + 1 := ⟨fuel - 1, by rw [List.length_cons] at hfuel; omega⟩
    have hfuel' : rs.length ≤ fuel := by
      rw [List.length_cons] at hfuel
      omega
    rw [contents_cons, getdentsLoop_record]
    by_cases hlive : r.entry.inodeNum = 0
    · -- passed over
      rw [if_pos hlive]
      obtain ⟨taken, rest, hsplit, heq, hle, hhead⟩ := @ih (pre ++ r.bytes) fuel buf hfuel' hbuf
      have hdead : dirents pre.length (r :: taken) = dirents (pre ++ r.bytes).length taken := by
        simp [dirents, DirRecord.live, hlive]
      refine ⟨r :: taken, rest, by rw [hsplit, List.cons_append], ?_, ?_, ?_⟩
      · rw [heq, hdead, contents_cons, List.length_append, List.length_append, Nat.add_assoc]
      · rwa [hdead]
      · rwa [hdead]
    · rw [if_neg hlive]
      have hlive' : r.live = true := by simpa [DirRecord.live] using hlive
      by_cases hfits : bufLen < buf.length + r.direntLen
      · rw [if_pos hfits]
        refine ⟨[], r :: rs, rfl, ?_, ?_, ?_⟩
        · simp [dirents]
        · simpa [dirents] using hbuf
        · simpa [dirents, hlive'] using hfits
      · rw [if_neg hfits]
        obtain ⟨taken, rest, hsplit, heq, hle, hhead⟩ := @ih (pre ++ r.bytes) fuel
          (buf ++ DirContent.linuxDirent r.entry (pre ++ r.bytes).length) hfuel'
          (by rw [List.length_append, length_linuxDirent]; omega)
        have hcons : buf ++ dirents pre.length (r :: taken) =
            buf ++ DirContent.linuxDirent r.entry (pre ++ r.bytes).length ++
              dirents (pre ++ r.bytes).length taken := by
          simp [dirents, hlive']
        refine ⟨r :: taken, rest, by rw [hsplit, List.cons_append], ?_, ?_, ?_⟩
        · rw [heq, hcons, contents_cons, List.length_append, List.length_append, Nat.add_assoc]
        · rwa [hcons]
        · rwa [hcons]

/-- **`getdents` returns the records in use from the front**, up to the first that does not fit
into the buffer. -/
theorem getdents_contents (bufLen : ℕ) : ∃ taken rest, rs = taken ++ rest ∧
    DirContent.getdents (contents rs) bufLen = some ((contents taken).length, dirents 0 taken) ∧
    (dirents 0 taken).length ≤ bufLen ∧
    ∀ r ∈ rest.head?, r.live ∧ bufLen < (dirents 0 taken).length + r.direntLen := by
  have h := @getdentsLoop_contents [] rs (contents rs).length bufLen [] (length_contents_le rs)
    (Nat.zero_le _)
  simp only [List.nil_append, List.length_nil, Nat.zero_add] at h
  exact h

/-- A buffer that is long enough takes the whole listing. -/
theorem getdents_whole {bufLen : ℕ} (h : (dirents 0 rs).length ≤ bufLen) :
    DirContent.getdents (contents rs) bufLen = some ((contents rs).length, dirents 0 rs) := by
  obtain ⟨taken, rest, rfl, hget, -, hhead⟩ := @getdents_contents rs bufLen
  cases rest with
  | nil =>
    rw [hget, List.append_nil]
  | cons r rest =>
    -- there was room for this record too
    obtain ⟨hlive, hfull⟩ := hhead r (by simp)
    rw [dirents_append, dirents, if_pos hlive, List.length_append, List.length_append,
      length_linuxDirent] at h
    omega

end Scans

end QuackOS.Ext4
