import QuackOS.Ext4.DirGrowth
import QuackOS.Lib.Run

/-!
# The checksum of a directory

`set_dirblock_csum` stores a checksum in the last four bytes of the directory, where a tail is
kept for it in the format.  Nothing else in the code keeps one: the last record of a directory
reaches to the end, and the checksum is harmless as long as its name does not.

* `Reserved`, `setDirblockCsum_contents` — a name that ends in time, and what the checksum changes;
* `Ext4Inode.extendDir_records` — what a directory of any number of blocks grows by;
* `DirCall` — the calls that change a directory, `Harmless` and `Clear` of a call;
* `Sound`, `sound_step` — a directory in order, and that clear calls leave it so;
* `harmless_along` — **in a run of clear calls no checksum changes an entry**;
* `initDotDotdot_spec` — where directories start;
* `last_name_overwritten` — a run in which one does.
-/

namespace QuackOS.Ext4

open Buffer Slice

variable {rs rs' : List DirRecord} {r : DirRecord} {name : Name}

/-! ## Records with other bytes behind the name -/

/-- The parser looks at the header, the name and the length. -/
theorem Ext4DirEntry.tryFrom_congr {bs bs' : List (BitVec 8)} {e : Ext4DirEntry}
    (h : tryFrom bs = .ok e) (hlen : bs'.length = bs.length)
    (hsame : bs'.take (8 + e.nameLen.toNat) = bs.take (8 + e.nameLen.toNat)) :
    tryFrom bs' = .ok e := by
  have hbyte : ∀ i < 8, toBuffer bs' i = toBuffer bs i := by
    intro i hi
    have hget (cs : List (BitVec 8)) :
        toBuffer cs i = (cs.take (8 + e.nameLen.toNat)).getD i 0 := by
      unfold toBuffer
      rw [List.getD_eq_getElem?_getD, List.getD_eq_getElem?_getD, List.getElem?_take_of_lt (by omega)]
    rw [hget, hget, hsame]
  have hino : u32At (toBuffer bs') 0 = u32At (toBuffer bs) 0 := by
    simp only [u32At, getLe, Nat.zero_add, Nat.reduceAdd, hbyte 0, hbyte 1, hbyte 2, hbyte 3,
      Nat.reduceLT]
  have hrec : u16At (toBuffer bs') 4 = u16At (toBuffer bs) 4 := by
    simp only [u16At, getLe, Nat.reduceAdd, hbyte 4, hbyte 5, Nat.reduceLT]
  have hname : (bs'.drop 8).take e.nameLen.toNat = (bs.drop 8).take e.nameLen.toNat := by
    have hdrop := congrArg (List.drop 8) hsame
    rwa [List.drop_take, List.drop_take, Nat.add_sub_cancel_left] at hdrop
  unfold tryFrom at h ⊢
  dsimp only at h ⊢
  rw [hlen, hino, hrec, hbyte 6 (by omega), hbyte 7 (by omega)]
  split at h
  · cases h
  · split at h
    · cases h
    · split at h
      · cases h
      · rename_i h8 hrange hfits
        rw [if_neg h8, if_neg hrange, if_neg hfits]
        cases h
        rw [hname]

/-- The last bytes of a record can be exchanged where its name does not reach. -/
theorem DirRecord.exists_retail (r : DirRecord) {bs : List (BitVec 8)}
    (hroom : 8 + r.entry.nameLen.toNat + bs.length ≤ r.bytes.length) :
    ∃ r' : DirRecord, r'.entry = r.entry ∧
      r'.bytes = r.bytes.take (r.bytes.length - bs.length) ++ bs := by
  have hlen : (r.bytes.take (r.bytes.length - bs.length) ++ bs).length = r.bytes.length := by
    rw [List.length_append, List.length_take]
    omega
  refine ⟨⟨_, r.entry, Ext4DirEntry.tryFrom_congr r.parsed hlen ?_, by rw [hlen]; exact r.covers⟩, rfl, rfl⟩
  rw [List.take_append_of_le_length (by rw [List.length_take]; omega), List.take_take,
    Nat.min_eq_left (by omega)]

/-! ## What the checksum changes -/

/-- The name of the last record ends four bytes before the record does. -/
def Reserved (rs : List DirRecord) : Prop :=
  ∀ r ∈ rs.getLast?, 12 + r.entry.nameLen.toNat ≤ r.bytes.length

theorem length_leList (n v : ℕ) : (leList n v).length = n := by
  rw [leList, List.length_map, List.length_range]

/-- There is room for the checksum in all but the shortest buffers. -/
theorem exists_setDirblockCsum {ino : Ext4Inode} {seed generation : UInt32}
    {content : List (BitVec 8)} (h : 12 ≤ content.length) :
    ∃ content', ino.setDirblockCsum seed generation content = some content' := by
  rw [Ext4Inode.setDirblockCsum, if_neg (by omega)]
  dsimp only
  rw [blit, if_pos (by rw [length_leList]; omega)]
  exact ⟨_, rfl⟩

/-- **The checksum goes behind the last name**, and every entry stays what it was. -/
theorem setDirblockCsum_contents {ino : Ext4Inode} {seed generation : UInt32}
    {content' : List (BitVec 8)} (hres : Reserved rs)
    (h : ino.setDirblockCsum seed generation (contents rs) = some content') :
    ∃ rs', content' = contents rs' ∧ rs'.map DirRecord.entry = rs.map DirRecord.entry := by
  unfold Ext4Inode.setDirblockCsum at h
  split at h
  · cases h
  · rename_i hlen
    dsimp only at h
    generalize hcsum : leList 4 _ = csum at h
    have hfour : csum.length = 4 := by rw [← hcsum, length_leList]
    rcases List.eq_nil_or_concat rs with rfl | ⟨before, r, rfl⟩
    · exact absurd (show (contents []).length < 12 by decide) hlen
    · have hroom := hres r (by simp)
      have hsplit : contents (before.concat r) = (contents before ++
          r.bytes.take (r.bytes.length - 4)) ++ (r.bytes.drop (r.bytes.length - 4) ++ []) := by
        rw [List.concat_eq_append, contents_append, contents_cons, contents_nil, List.append_assoc,
          ← List.append_assoc (r.bytes.take _), List.take_append_drop]
      have hpos : (contents (before.concat r)).length - 12 + 8 =
          (contents before ++ r.bytes.take (r.bytes.length - 4)).length := by
        rw [hsplit] at hlen ⊢
        simp only [List.length_append, List.length_take, List.length_drop, List.length_nil] at hlen ⊢
        omega
      obtain ⟨r', hentry, hbytes⟩ := @DirRecord.exists_retail r csum (by omega)
      rw [hpos, hsplit, blit_within (by rw [List.length_drop]; omega), List.drop_eq_nil_of_le
        (by rw [List.length_drop]; omega)] at h
      refine ⟨before ++ [r'], ?_, by simp [hentry]⟩
      rw [contents_append, contents_cons, contents_nil, hbytes, hfour, ← Option.some.inj h]
      simp only [List.append_nil, List.append_assoc]

/-! ## The same entries -/

theorem length_contents_congr (h : rs'.map DirRecord.entry = rs.map DirRecord.entry) :
    (contents rs').length = (contents rs).length := by
  have hsum (ss : List DirRecord) :
      (contents ss).length = ((ss.map DirRecord.entry).map fun e => e.recLen.toNat).sum := by
    rw [contents, List.length_flatMap, List.map_map]
    exact congrArg List.sum (List.map_congr_left fun r _ => r.covers.symm)
  rw [hsum, hsum, h]

/-- `find` looks at the entries. -/
theorem find_congr (h : rs'.map DirRecord.entry = rs.map DirRecord.entry) (name : Name) :
    DirContent.find (contents rs') name = DirContent.find (contents rs) name := by
  have hmap (ss : List DirRecord) : (ss.find? fun r => r.name = name).map DirRecord.entry =
      (ss.map DirRecord.entry).find? fun e => DirContent.nameOf e = name := by
    rw [List.find?_map]
    rfl
  rw [find_contents, find_contents, hmap, hmap, h]

theorem getdentsLoop_congr {pre pre' buf : List (BitVec 8)} {bufLen fuel : ℕ}
    (h : rs'.map DirRecord.entry = rs.map DirRecord.entry) (hpre : pre'.length = pre.length) :
    DirContent.getdentsLoop (pre' ++ contents rs') bufLen fuel pre'.length buf =
      DirContent.getdentsLoop (pre ++ contents rs) bufLen fuel pre.length buf := by
  induction rs generalizing rs' pre pre' buf fuel with
  | nil =>
    obtain rfl : rs' = [] := List.map_eq_nil_iff.mp h
    cases fuel with
    | zero => rw [DirContent.getdentsLoop, DirContent.getdentsLoop, hpre]
    | succ fuel => simp [DirContent.getdentsLoop, DirContent.recLenAt, hpre]
  | cons r rs ih =>
    obtain ⟨r', rest, rfl, hentry, hrest⟩ := List.map_eq_cons_iff.mp h
    have hlen : r'.bytes.length = r.bytes.length := by rw [← r'.covers, ← r.covers, hentry]
    have hnext : (pre' ++ r'.bytes).length = (pre ++ r.bytes).length := by
      rw [List.length_append, List.length_append, hpre, hlen]
    have hdirent : r'.direntLen = r.direntLen := by rw [DirRecord.direntLen, hentry]; rfl
    cases fuel with
    | zero => rw [DirContent.getdentsLoop, DirContent.getdentsLoop, hpre]
    | succ fuel =>
      rw [contents_cons, contents_cons, getdentsLoop_record, getdentsLoop_record, ih hrest hnext,
        ih hrest hnext, hentry, hdirent, hpre, hnext]

/-- `getdents` looks at the entries. -/
theorem getdents_congr (h : rs'.map DirRecord.entry = rs.map DirRecord.entry) (bufLen : ℕ) :
    DirContent.getdents (contents rs') bufLen = DirContent.getdents (contents rs) bufLen := by
  rw [DirContent.getdents, DirContent.getdents, length_contents_congr h]
  exact @getdentsLoop_congr rs rs' [] [] [] bufLen _ h rfl

/-! ## A directory that grows by any number of blocks -/

namespace Ext4Inode

variable {ino ino' ino₁ : Ext4Inode} {fs fs' : Ext4FileSystem} {buf : List (BitVec 8)} {num : UInt32}
  {ty : UInt8} {off n : ℕ}

/-- The last page of a file is read into a buffer of any length from a page on. -/
theorem read_lastPage {p : Page} (hp : ino.pages[off / pageSize]? = some p)
    (hoff : off % pageSize = 0) (hsize : ino.inodeOnDisk.sizeLo = off + pageSize)
    (hn : pageSize ≤ n) : ino.read fs off n = some (p.slice 0 pageSize, ino) := by
  obtain ⟨m, rfl⟩ : ∃ m, n = m + 1 := ⟨n - 1, by unfold pageSize at hn; omega⟩
  unfold read
  dsimp only
  rw [hsize, if_neg (by unfold pageSize; omega), hoff, readLoop, if_pos (by simp),
    if_neg (by simp [hp]), readPage, hp]
  dsimp only
  have hcopy : min (min (m + 1 - ([] : List (BitVec 8)).length) (pageSize - 0))
      (off + pageSize - (([] : List (BitVec 8)).length + off)) = pageSize := by
    rw [List.length_nil]
    omega
  rw [hcopy, List.nil_append, if_pos (by simp [Page.slice]; omega)]

/-- An empty directory cannot grow: the buffer is as long as the directory was. -/
theorem extendDir_nil : ino.extendDir fs name num ty [] = none := by
  refine Option.eq_none_iff_forall_ne_some.mpr fun s' h => ?_
  obtain ⟨_, _, _, _, _, _, _, _, buf₁, _, buf₂, _, -, -, -, hread, hadd, -⟩ := extendDir_steps h
  obtain rfl : buf₁ = [] := List.eq_nil_of_length_eq_zero (readInto_length hread)
  cases hadd

/-- A free record of a block's length takes the entry, when none behind it does. -/
theorem addEntry_inFront {free : DirRecord} {rest : List DirRecord} {content' : List (BitVec 8)}
    (hdead : free.live = false) (hlen : free.bytes.length = 4096)
    (hrest : ∀ r ∈ rest, r.takes name = false)
    (hadd : DirContent.addEntry (contents (free :: rest)) name num ty = some (.ok content')) :
    ∃ new : DirRecord, content' = contents (new :: rest) ∧ new.bytes.length = 4096 ∧
      new.entry.nameLen.toNat = (nameBytes name).length % 256 := by
  have hsplit : ∀ before r after, free :: rest = before ++ r :: after → r.takes name = true →
      before = [] ∧ r = free ∧ after = rest := by
    intro before r after heq htakes
    cases before with
    | nil =>
      obtain ⟨rfl, rfl⟩ := List.cons_eq_cons.mp heq
      exact ⟨rfl, rfl, rfl⟩
    | cons b before =>
      obtain ⟨rfl, rfl⟩ := List.cons_eq_cons.mp heq
      rw [hrest r (by simp)] at htakes
      cases htakes
  have hused : free.used = 0 := by rw [DirRecord.used, hdead, if_neg Bool.false_ne_true]
  have hroomy : Roomy name (free :: rest) := by
    intro before r after heq _ htakes
    obtain ⟨-, rfl, -⟩ := hsplit before r after heq htakes
    omega
  rcases @addEntry_records (free :: rest) name num ty hroomy with ⟨-, hnone⟩ |
    ⟨before, r, after, front, new, heq, -, htakes, hfitted, hput⟩
  · rw [hnone] at hadd
    cases hadd
  · obtain ⟨rfl, rfl, rfl⟩ := hsplit before r after heq htakes
    rw [hput, Option.some.injEq, Except.ok.injEq] at hadd
    have hlength := hfitted.length
    have hfront : front = [] := by
      rcases hfitted.kept with ⟨-, hnil⟩ | ⟨hlive, -⟩
      · exact hnil
      · rw [hdead] at hlive
        cases hlive
    rw [hfront, contents_nil, List.length_nil, Nat.zero_add] at hlength
    refine ⟨new, ?_, hlength.trans hlen, ?_⟩
    · rw [← hadd, hfront]
      rfl
    · rw [hfitted.entry]
      exact (nameLen_newEntry name num new.entry.recLen ty).1

/-- The page that a free record was written into the front of. -/
theorem Wrote.emptyPage (h : ino.Wrote ino' off emptyDentry) (hoff : off % pageSize = 0) :
    ∃ p, ino'.pages[off / pageSize]? = some p ∧
      p.slice 0 pageSize = (p.copyIn 0 emptyDentry).slice 0 pageSize := by
  obtain ⟨p, hp, -⟩ := h.page (by decide) 0 (by decide)
  refine ⟨p, hp, List.map_congr_left fun x _ => ?_⟩
  unfold Page.copyIn
  dsimp only
  rw [if_pos (Nat.zero_le x), Nat.sub_zero]
  by_cases hx : x < emptyDentry.length
  · obtain ⟨q, hq, hdata⟩ := h.page (by decide) x hx
    have hx8 : x < 8 := hx
    have hdiv : (off + x) / pageSize = (off + 0) / pageSize := by
      unfold pageSize at hoff ⊢
      omega
    have hmod : (off + x) % pageSize = x := by
      unfold pageSize at hoff ⊢
      omega
    rw [hdiv, hp] at hq
    cases hq
    rw [hmod] at hdata
    rw [List.getElem?_eq_getElem hx, Option.getD_some, hdata]
  · rw [List.getElem?_eq_none (by omega), Option.getD_none]

/-- The free record behind the old end: what was there is still shown, and the page of it is in
memory. -/
theorem write_behind {d : Ext4InodeDisk} {fs₂ fs₃ : Ext4FileSystem} {n₂ : ℕ} {ino₂ : Ext4Inode}
    (hwrite : ({ ino with inodeOnDisk := d }.setSize (usize (ino.getSize + pageSize))).write fs₂
      ino.getSize emptyDentry = some (n₂, ino₂, fs₃))
    (hshows : ino.Shows 0 buf) (hsize : buf.length = ino.getSize)
    (hblocks : ino.getSize % 4096 = 0) (hlt : ino.getSize + 4096 < 2 ^ 32) :
    ino₂.Shows 0 buf ∧ ino₂.getSize = ino.getSize + 4096 ∧
      ∃ p, ino₂.pages[ino.getSize / pageSize]? = some p ∧
        p.slice 0 pageSize = (p.copyIn 0 emptyDentry).slice 0 pageSize := by
  obtain ⟨ino₁, hino₁⟩ : ∃ i, i = { ino with inodeOnDisk := d }.setSize
    (usize (ino.getSize + pageSize)) := ⟨_, rfl⟩
  rw [← hino₁] at hwrite
  have hsize₁ : ino₁.getSize = ino.getSize + 4096 := by
    rw [hino₁]
    exact Nat.mod_eq_of_lt (by unfold pageSize; omega)
  have hshows₁ : ino₁.Shows 0 buf := by
    refine ⟨?_, fun k hk => ?_⟩
    · have hlo : ino₁.inodeOnDisk.sizeLo = ino.getSize + 4096 := by
        change ino₁.getSize % 2 ^ 32 = _
        rw [hsize₁, Nat.mod_eq_of_lt hlt]
      rw [hlo, hsize]
      omega
    · have hset : ∀ m, ({ ino with inodeOnDisk := d }.setSize m).pages = ino.pages := fun _ => rfl
      rw [hino₁, hset]
      exact hshows.page k hk
  have hempty : emptyDentry.length = 8 := rfl
  have hfits : ino₁.sizeAfter (ino.getSize + emptyDentry.length) = ino.getSize + 4096 := by
    rw [sizeAfter, hsize₁, hempty]
    omega
  obtain ⟨-, hwrote⟩ := write_spec hwrite
  refine ⟨shows_of_write_elsewhere hshows₁ hwrite (.inl (by rw [hsize, Nat.zero_add]))
    (by rw [hfits]; exact hlt), ?_, hwrote.emptyPage hblocks⟩
  have hend : usize (ino.getSize + emptyDentry.length) = ino.getSize + emptyDentry.length :=
    Nat.mod_eq_of_lt (by rw [hempty]; omega)
  have hgrown := hwrote.size
  rw [hend, hfits] at hgrown
  exact hgrown

/-- **A directory whose first block ends with a record grows by as much as it has**: a new block,
and copies of all blocks but the first. -/
theorem extendDir_records {first rest : List DirRecord}
    (h : ino.extendDir fs name num ty (contents (first ++ rest)) = some (ino', fs'))
    (hfirst : (contents first).length = 4096) (hshows : ino.Shows 0 (contents (first ++ rest)))
    (hsize : (contents (first ++ rest)).length = ino.getSize) (hblocks : ino.getSize % 4096 = 0)
    (hlt : 2 * ino.getSize < 2 ^ 32) (hrest : ∀ r ∈ rest, r.takes name = false) :
    ∃ new : DirRecord, new.bytes.length = 4096 ∧
      new.entry.nameLen.toNat = (nameBytes name).length % 256 ∧
      ino'.Directory fs' (first ++ rest ++ new :: rest) := by
  have hpos : 4096 ≤ ino.getSize := by
    rw [← hsize, contents_append, List.length_append, hfirst]
    omega
  have hdouble := extendDir_size h hsize hpos (by omega)
  obtain ⟨_, _, _, d, _, _, ino₂, fs₃, buf₁, ino₃, buf₂, _, -, -, hwrite, hread, hadd, hback⟩ :=
    extendDir_steps h
  -- the free record goes behind the old end
  obtain ⟨hshows₂, hsize₂, p, hp, hhead⟩ := write_behind hwrite hshows hsize hblocks (by omega)
  have hlo₂ : ino₂.inodeOnDisk.sizeLo = ino.getSize + pageSize := by
    change ino₂.getSize % 2 ^ 32 = _
    rw [hsize₂, Nat.mod_eq_of_lt (by omega)]
    rfl
  -- and is read back, in front of what the buffer had behind its first block
  obtain ⟨free, hfree, hdead, hrec⟩ := exists_freeRecord p
  have hfreeLen : free.bytes.length = 4096 := by
    rw [← free.covers, hrec]
    rfl
  have hlast := @read_lastPage ino₂ fs₃ ino.getSize (contents (first ++ rest)).length p hp hblocks
    hlo₂ (by rw [hsize]; exact hpos)
  rw [readInto, hlast, Option.map_some, hhead, hfree] at hread
  dsimp only at hread
  rw [hfreeLen, contents_append, ← hfirst, List.drop_left, Option.some.injEq,
    Prod.mk.injEq] at hread
  obtain ⟨rfl, rfl⟩ := hread
  obtain ⟨new, rfl, hnew, hname⟩ := addEntry_inFront hdead hfreeLen hrest hadd
  -- the new block and the copies are written back behind the old end
  have hlen : (contents (new :: rest)).length = ino.getSize := by
    rw [← hsize, contents_append, contents_cons, List.length_append, List.length_append, hnew,
      hfirst]
  have hfits : ino₂.sizeAfter (ino.getSize + (contents (new :: rest)).length) = 2 * ino.getSize := by
    rw [sizeAfter, hsize₂, hlen]
    omega
  have hold := shows_of_write_elsewhere hshows₂ hback (.inl (by rw [hsize, Nat.zero_add]))
    (by rw [hfits]; exact hlt)
  have hadded := (write_spec hback).2.shows (by rw [hfits]; exact hlt)
  refine ⟨new, hnew, hname, Shows.directory ?_ ?_ fs'⟩
  · rw [contents_append (first ++ rest)]
    refine hold.append ?_
    rw [hsize, Nat.zero_add]
    exact hadded
  · rw [contents_append (first ++ rest), List.length_append, hsize, hlen, hdouble]
    omega

end Ext4Inode

/-! ## Calls -/

/-- The calls of `Ext4Inode` that change a directory. -/
inductive DirCall
  | addEntry (name : Name) (inodeNum : UInt32) (fileType : UInt8)
  | deleteEntry (name : Name)
  | setEntry (oldName : Name) (newInodeNum : UInt32) (newFileType : UInt8)

/-- Where the entry goes, four bytes of the directory are left behind its name; a directory that
has to grow has a record that ends with its first block, and is less than half as long as sizes
can be. -/
def AddClear (name : Name) (rs : List DirRecord) : Prop :=
  match rs.dropWhile fun r => !r.takes name with
  | [] => 2 * (contents rs).length < 2 ^ 32 ∧ ∃ first rest, rs = first ++ rest ∧
      (contents first).length = min 4096 (contents rs).length
  | r :: after => r.used + 8 + (nameBytes name).length % 256 +
      (if after.isEmpty then 4 else 0) ≤ r.bytes.length

namespace DirCall

/-- The call, if it comes back. -/
def step (seed generation : UInt32) (s : Ext4Inode × Ext4FileSystem) :
    DirCall → Option (Ext4Inode × Ext4FileSystem)
  | addEntry name inodeNum fileType => s.1.addEntry s.2 seed generation name inodeNum fileType
  | deleteEntry name => (s.1.deleteEntry s.2 seed generation name).map Prod.snd
  | setEntry oldName newInodeNum newFileType =>
    s.1.setEntry s.2 seed generation oldName newInodeNum newFileType

/-- The buffer that a call gives to `set_dirblock_csum`, if it does. -/
def edited (content : List (BitVec 8)) : DirCall → Option (List (BitVec 8))
  | addEntry name inodeNum fileType =>
    match DirContent.addEntry content name inodeNum fileType with
    | some (.ok content') => some content'
    | _ => none
  | deleteEntry name => (DirContent.deleteEntry content name).join
  | setEntry oldName newInodeNum newFileType =>
    match DirContent.setEntry content oldName newInodeNum newFileType with
    | some (.ok content') => some content'
    | _ => none

/-- **The checksum changes no entry** of the directory that the call has made: every name is found
as it was, and so is the listing. -/
def Harmless (seed generation : UInt32) (s : Ext4Inode × Ext4FileSystem) (call : DirCall) : Prop :=
  ∀ content ino' content' content'',
    s.1.readInto s.2 0 (List.replicate s.1.getSize 0) = some (content, ino') →
    call.edited content = some content' →
    ino'.setDirblockCsum seed generation content' = some content'' →
      (∀ name, DirContent.find content'' name = DirContent.find content' name) ∧
        ∀ bufLen, DirContent.getdents content'' bufLen = DirContent.getdents content' bufLen

/-- What keeps the last four bytes free: an added entry has to leave them, and no call may lose
the ends of the records. -/
def ClearOf (rs : List DirRecord) : DirCall → Prop
  | addEntry name _ _ => AddClear name rs
  | deleteEntry name => Mergeable name rs
  | setEntry .. => True

/-- The same of the directory the call is made on. -/
def Clear (s : Ext4Inode × Ext4FileSystem) (call : DirCall) : Prop :=
  ∀ rs ino', s.1.readInto s.2 0 (List.replicate s.1.getSize 0) = some (contents rs, ino') →
    call.ClearOf rs

end DirCall

/-! ### What a call does -/

section Edits

variable {before after news olds : List DirRecord} {q merged : DirRecord} {num : UInt32} {ty : UInt8}

theorem reserved_concat : Reserved (before ++ [r]) ↔ 12 + r.entry.nameLen.toNat ≤ r.bytes.length := by
  simp [Reserved]

/-- The last record is what counts. -/
theorem reserved_behind (h : after ≠ []) : Reserved (before ++ after) ↔ Reserved after := by
  rw [Reserved, Reserved, List.getLast?_append_of_ne_nil _ h]

/-- Records are exchanged: where they are the last ones, the new ones have to be right. -/
theorem Reserved.replace (h : Reserved (before ++ (olds ++ after)))
    (hlast : after = [] → Reserved (before ++ news)) : Reserved (before ++ (news ++ after)) := by
  rw [← List.append_assoc] at h ⊢
  by_cases hnil : after = []
  · rw [hnil, List.append_nil]
    exact hlast hnil
  · rw [reserved_behind hnil] at h ⊢
    exact h

/-- Other bytes behind the names make no difference. -/
theorem reserved_congr (h : rs'.map DirRecord.entry = rs.map DirRecord.entry) (hres : Reserved rs) :
    Reserved rs' := by
  intro r' hr'
  have hlast := congrArg List.getLast? h
  rw [List.getLast?_map, List.getLast?_map, Option.mem_def.mp hr', Option.map_some] at hlast
  obtain ⟨r, hr, hentry⟩ := Option.map_eq_some_iff.mp hlast.symm
  rw [← r'.covers, ← hentry, r.covers]
  exact hres r hr

theorem AddClear.room (h : AddClear name rs) (hsplit : rs = before ++ r :: after)
    (hbefore : ∀ b ∈ before, b.takes name = false) (htakes : r.takes name = true) :
    r.used + 8 + (nameBytes name).length % 256 + (if after.isEmpty then 4 else 0) ≤
      r.bytes.length := by
  rw [AddClear, hsplit, (takeWhile_split (by simpa using hbefore) (by simp [htakes])).2] at h
  exact h

theorem roomy_of_clear (h : AddClear name rs) : Roomy name rs :=
  fun _ _ _ hsplit hbefore htakes =>
    le_trans (Nat.le_add_right _ _) (h.room hsplit hbefore htakes)

/-- The entry that was added leaves the last four bytes. -/
theorem edited_addEntry {content' : List (BitVec 8)} (hres : Reserved rs) (hclear : AddClear name rs)
    (h : DirContent.addEntry (contents rs) name num ty = some (.ok content')) :
    ∃ rs', content' = contents rs' ∧ (contents rs').length = (contents rs).length ∧
      Reserved rs' := by
  rcases @addEntry_records rs name num ty (roomy_of_clear hclear) with ⟨-, hnone⟩ |
    ⟨before, r, after, front, new, hsplit, hbefore, htakes, hfitted, hput⟩
  · rw [hnone] at h
    cases h
  · rw [hput, Option.some.injEq, Except.ok.injEq] at h
    have hlength := hfitted.length
    have hused := hfitted.used
    have hname : new.entry.nameLen.toNat = (nameBytes name).length % 256 := by
      rw [hfitted.entry]
      exact (nameLen_newEntry name num new.entry.recLen ty).1
    have hfits := hclear.room hsplit hbefore htakes
    refine ⟨_, h.symm, ?_, ?_⟩
    · rw [hsplit]
      simp only [contents_append, contents_cons, contents_nil, List.length_append, List.length_nil]
      omega
    · rw [hsplit] at hres
      rw [List.append_assoc]
      refine @Reserved.replace before after (front ++ [new]) [r] hres fun hnil => ?_
      rw [← List.append_assoc, reserved_concat, hname]
      rw [if_pos (by rw [hnil]; rfl)] at hfits
      omega

/-- No record takes an entry that could not be added. -/
theorem takes_of_error {e : String} (hclear : AddClear name rs)
    (h : DirContent.addEntry (contents rs) name num ty = some (.error e)) :
    ∀ r ∈ rs, r.takes name = false := by
  rcases @addEntry_records rs name num ty (roomy_of_clear hclear) with ⟨hnone, -⟩ |
    ⟨before, r, after, front, new, -, -, -, -, hput⟩
  · exact hnone
  · rw [hput] at h
    cases h

/-- A record that takes the bytes of the one behind it has its name where it was. -/
theorem edited_deleteEntry {content' : List (BitVec 8)} (hres : Reserved rs)
    (hclear : Mergeable name rs)
    (h : DirContent.deleteEntry (contents rs) name = some (some content')) :
    ∃ rs', content' = contents rs' ∧ (contents rs').length = (contents rs).length ∧
      Reserved rs' := by
  rcases deleteEntry_records hclear with ⟨-, hnone⟩ |
    ⟨r, after, dead, rfl, -, hentry, hlen, hdone⟩ |
    ⟨before, q, r, after, merged, rfl, -, -, hmerged, hdone⟩
  · rw [hnone] at h
    cases h
  · rw [hdone, Option.some.injEq, Option.some.injEq] at h
    refine ⟨_, h.symm, by simp only [contents_cons, List.length_append, hlen], ?_⟩
    refine @Reserved.replace [] after [dead] [r] hres fun hnil => ?_
    have hname : dead.entry.nameLen = r.entry.nameLen := by rw [hentry]
    rw [hnil] at hres
    rw [reserved_concat, hname, hlen]
    exact (@reserved_concat r []).mp hres
  · rw [hdone, Option.some.injEq, Option.some.injEq] at h
    have hlen := hmerged.length
    refine ⟨_, h.symm, ?_, ?_⟩
    · simp only [contents_append, contents_cons, List.length_append]
      omega
    · refine @Reserved.replace before after [merged] [q, r] hres fun _ => ?_
      have hname : merged.entry.nameLen = q.entry.nameLen := by rw [hmerged.entry]
      have hq := q.length_bytes.2.2
      have hr := r.length_bytes.1
      rw [reserved_concat, hname]
      omega

theorem edited_setEntry {content' : List (BitVec 8)} (hres : Reserved rs)
    (h : DirContent.setEntry (contents rs) name num ty = some (.ok content')) :
    ∃ rs', content' = contents rs' ∧ (contents rs').length = (contents rs).length ∧
      Reserved rs' := by
  rcases @setEntry_contents rs name num ty with ⟨-, hnone⟩ |
    ⟨before, r, after, new, rfl, -, -, hentry, hlen, hdone⟩
  · rw [hnone] at h
    cases h
  · rw [hdone, Option.some.injEq, Except.ok.injEq] at h
    refine ⟨_, h.symm, ?_, ?_⟩
    · simp only [contents_append, contents_cons, List.length_append, hlen]
    · refine @Reserved.replace before after [new] [r] hres fun hnil => ?_
      have hname : new.entry.nameLen = r.entry.nameLen := by rw [hentry]
      rw [hnil] at hres
      rw [reserved_concat, hname, hlen]
      exact reserved_concat.mp hres

end Edits

/-! ## Directories in order -/

/-- A directory in order: its records fill whole blocks, and the last one leaves the last four
bytes alone. -/
structure Sound (s : Ext4Inode × Ext4FileSystem) (rs : List DirRecord) : Prop where
  directory : s.1.Directory s.2 rs
  blocks : (contents rs).length % 4096 = 0
  reserved : Reserved rs

variable {seed generation : UInt32} {s s' : Ext4Inode × Ext4FileSystem} {call : DirCall}

namespace DirCall

variable {ino₁ : Ext4Inode} {content content' : List (BitVec 8)}

/-- What a call makes of the records, before the checksum. -/
theorem edited_spec (hres : Reserved rs) (hclear : call.ClearOf rs)
    (h : call.edited (contents rs) = some content') :
    ∃ rs', content' = contents rs' ∧ (contents rs').length = (contents rs).length ∧
      Reserved rs' := by
  cases call with
  | addEntry name num ty =>
    rw [edited] at h
    split at h
    · rename_i hadd
      cases h
      exact edited_addEntry hres hclear hadd
    · cases h
  | deleteEntry name => exact edited_deleteEntry hres hclear (Option.join_eq_some_iff.mp h)
  | setEntry oldName num ty =>
    rw [edited] at h
    split at h
    · rename_i hset
      cases h
      exact edited_setEntry hres hset
    · cases h

/-- **A call that comes back** has written what it edited, with the checksum, or found no entry to
delete, or made the directory longer. -/
theorem step_cases
    (hread : s.1.readInto s.2 0 (List.replicate s.1.getSize 0) = some (content, ino₁))
    (h : step seed generation s call = some s') :
    (∃ content' content'' n, call.edited content = some content' ∧
      ino₁.setDirblockCsum seed generation content' = some content'' ∧
      ino₁.write s.2 0 content'' = some (n, s')) ∨ s' = (ino₁, s.2) ∨
    ∃ name num ty e, call = addEntry name num ty ∧
      DirContent.addEntry content name num ty = some (.error e) ∧
      ino₁.extendDir s.2 name num ty content = some s' := by
  cases call with
  | addEntry name num ty =>
    simp only [step, Ext4Inode.addEntry, hread, Option.bind_eq_bind, Option.bind_some] at h
    obtain ⟨r, hadd, h⟩ := Option.bind_eq_some_iff.mp h
    cases r with
    | error e => exact .inr (.inr ⟨name, num, ty, e, rfl, hadd, h⟩)
    | ok content' =>
      obtain ⟨content'', hcsum, h⟩ := Option.bind_eq_some_iff.mp h
      obtain ⟨⟨n, ino₂, fs₁⟩, hwrite, h⟩ := Option.bind_eq_some_iff.mp h
      cases h
      exact .inl ⟨content', content'', n, by rw [edited, hadd], hcsum, hwrite⟩
  | deleteEntry name =>
    simp only [step, Ext4Inode.deleteEntry, hread, Option.bind_eq_bind, Option.bind_some] at h
    obtain ⟨t, hrun, rfl⟩ := Option.map_eq_some_iff.mp h
    obtain ⟨r, hdelete, h⟩ := Option.bind_eq_some_iff.mp hrun
    cases r with
    | none =>
      cases h
      exact .inr (.inl rfl)
    | some content' =>
      obtain ⟨content'', hcsum, h⟩ := Option.bind_eq_some_iff.mp h
      obtain ⟨⟨n, ino₂, fs₁⟩, hwrite, h⟩ := Option.bind_eq_some_iff.mp h
      cases h
      exact .inl ⟨content', content'', n, by rw [edited, hdelete]; rfl, hcsum, hwrite⟩
  | setEntry oldName num ty =>
    simp only [step, Ext4Inode.setEntry, hread, Option.bind_eq_bind, Option.bind_some] at h
    obtain ⟨r, hset, h⟩ := Option.bind_eq_some_iff.mp h
    cases r with
    | error e => cases h
    | ok content' =>
      obtain ⟨content'', hcsum, h⟩ := Option.bind_eq_some_iff.mp h
      obtain ⟨⟨n, ino₂, fs₁⟩, hwrite, h⟩ := Option.bind_eq_some_iff.mp h
      cases h
      exact .inl ⟨content', content'', n, by rw [edited, hset], hcsum, hwrite⟩

end DirCall

/-- A directory in order, as a call finds it. -/
theorem Sound.reads (h : Sound s rs) : ∃ ino₁, s.1.ReadsFrom s.2 [] rs ino₁ ∧
    s.1.readInto s.2 0 (List.replicate s.1.getSize 0) = some (contents rs, ino₁) ∧
    s.1.getSize < 2 ^ 32 := by
  obtain ⟨ino₁, hreads⟩ := h.directory.readsFrom
  refine ⟨ino₁, hreads, hreads.read, ?_⟩
  by_cases hnil : contents rs = []
  · have hsize := h.directory.size
    rw [hnil, List.length_nil] at hsize
    omega
  · exact hreads.size_lt hnil

/-- Records of the same length that were written over the directory. -/
theorem Sound.written {ino₁ ino₂ : Ext4Inode} {fs₁ : Ext4FileSystem} {n : ℕ} (h : Sound s rs)
    (hreads : s.1.ReadsFrom s.2 [] rs ino₁) (hlen : (contents rs').length = (contents rs).length)
    (hres : Reserved rs') (hwrite : ino₁.write s.2 0 (contents rs') = some (n, ino₂, fs₁)) :
    Sound (ino₂, fs₁) rs' := by
  obtain ⟨-, -, -, hlt⟩ := h.reads
  have hsize := h.directory.size
  have hsize₁ : ino₁.getSize = s.1.getSize := congrArg Ext4InodeDisk.size hreads.inodeOnDisk
  have hafter : ino₁.sizeAfter (0 + (contents rs').length) = s.1.getSize := by
    rw [Ext4Inode.sizeAfter, hsize₁, hlen, hsize, Nat.zero_add, Nat.max_self]
  have hwrote := (Ext4Inode.write_spec hwrite).2
  have husize : Ext4.usize (0 + (contents rs').length) = 0 + (contents rs').length :=
    Nat.mod_eq_of_lt (by omega)
  have hsize₂ : ino₂.getSize = s.1.getSize := by
    have hgrown := hwrote.size
    rw [husize, hafter] at hgrown
    exact hgrown
  have hshows := hwrote.shows (by rw [hafter]; exact hlt)
  exact ⟨hshows.directory (by rw [hlen, hsize, hsize₂]) fs₁, by rw [hlen]; exact h.blocks, hres⟩

/-- A directory that was read only. -/
theorem Sound.read {ino₁ : Ext4Inode} (h : Sound s rs) (hreads : s.1.ReadsFrom s.2 [] rs ino₁) :
    Sound (ino₁, s.2) rs := by
  have hsize : (contents rs).length = ino₁.getSize := by
    rw [h.directory.size]
    exact (congrArg Ext4InodeDisk.size hreads.inodeOnDisk).symm
  by_cases hnil : contents rs = []
  · -- nothing to read
    have hzero : ino₁.getSize = 0 := by rw [← hsize, hnil, List.length_nil]
    have hlo : ino₁.inodeOnDisk.sizeLo = 0 := by
      change ino₁.getSize % 2 ^ 32 = 0
      rw [hzero, Nat.zero_mod]
    refine ⟨⟨hsize, ino₁, ?_⟩, h.blocks, h.reserved⟩
    rw [Ext4Inode.read, if_pos (by rw [hlo]), hnil]
  · exact ⟨(hreads.shows hnil).directory hsize s.2, h.blocks, h.reserved⟩

/-- **A clear call leaves a directory in order.** -/
theorem sound_step (h : Sound s rs) (hclear : call.Clear s)
    (hstep : call.step seed generation s = some s') : ∃ rs', Sound s' rs' := by
  obtain ⟨ino₁, hreads, hread, hlt⟩ := h.reads
  have hclearOf := hclear rs ino₁ hread
  have hsize := h.directory.size
  have hblocks := h.blocks
  rcases DirCall.step_cases hread hstep with ⟨content', content'', n, hedit, hcsum, hwrite⟩ | rfl |
    ⟨name, num, ty, e, rfl, hfull, hextend⟩
  · obtain ⟨rs₁, rfl, hlen, hres⟩ := DirCall.edited_spec h.reserved hclearOf hedit
    obtain ⟨rs₂, rfl, hentries⟩ := setDirblockCsum_contents hres hcsum
    exact ⟨rs₂, h.written hreads ((length_contents_congr hentries).trans hlen)
      (reserved_congr hentries hres) hwrite⟩
  · exact ⟨rs, h.read hreads⟩
  · have hnone := takes_of_error hclearOf hfull
    have hgrowth := hclearOf
    rw [DirCall.ClearOf, AddClear, List.dropWhile_eq_nil_iff.mpr (by simpa using hnone)] at hgrowth
    obtain ⟨hdouble, first, rest, rfl, hfirst⟩ := hgrowth
    by_cases hnil : contents (first ++ rest) = []
    · rw [hnil, Ext4Inode.extendDir_nil] at hextend
      cases hextend
    · have hpos := List.length_pos_of_ne_nil hnil
      have hsize₁ : ino₁.getSize = s.1.getSize := congrArg Ext4InodeDisk.size hreads.inodeOnDisk
      have hblock : (contents first).length = 4096 := by omega
      obtain ⟨new, hnew, hname, hdir⟩ := Ext4Inode.extendDir_records hextend hblock
        (hreads.shows hnil) (by omega) (by omega) (by omega)
        (fun r hr => hnone r (List.mem_append_right _ hr))
      refine ⟨_, hdir, ?_, ?_⟩
      · rw [contents_append, contents_cons, List.length_append, List.length_append, hnew]
        rw [contents_append, List.length_append] at hblocks ⊢
        omega
      · by_cases hrest : rest = []
        · rw [hrest, reserved_concat, hnew, hname]
          omega
        · have hres := h.reserved
          rw [reserved_behind hrest] at hres
          rw [reserved_behind (List.cons_ne_nil _ _), ← List.singleton_append, reserved_behind hrest]
          exact hres

/-- **The checksum of a clear call changes no entry.** -/
theorem harmless_of_clear (h : Sound s rs) (hclear : call.Clear s) :
    call.Harmless seed generation s := by
  intro content ino' content' content'' hread hedit hcsum
  obtain ⟨ino₁, -, hread', -⟩ := h.reads
  obtain ⟨rfl, rfl⟩ := Prod.mk.inj (Option.some.inj (hread.symm.trans hread'))
  obtain ⟨rs₁, rfl, -, hres⟩ := DirCall.edited_spec h.reserved (hclear rs _ hread) hedit
  obtain ⟨rs₂, rfl, hentries⟩ := setDirblockCsum_contents hres hcsum
  exact ⟨find_congr hentries, getdents_congr hentries⟩

/-- **In a run of clear calls no checksum changes an entry**, whatever directory in order it
starts from. -/
theorem harmless_along (seed generation : UInt32) (h : Sound s rs) {calls : List DirCall}
    (hclear : Run.AlongSome (DirCall.step seed generation) (fun s call => call.Clear s) s calls) :
    Run.AlongSome (DirCall.step seed generation)
      (fun s call => call.Harmless seed generation s) s calls :=
  Run.alongSome_of_invariant (I := fun s => ∃ rs, Sound s rs)
    (fun _ _ _ ⟨_, hs⟩ hc hstep => sound_step hs hc hstep)
    (fun _ _ ⟨_, hs⟩ hc => harmless_of_clear hs hc) ⟨rs, h⟩ hclear

/-! ## Where directories start -/

/-- **What `init_dot_dotdot` writes**: two records, of which the second reaches to the end of the
block. -/
theorem initDotDotdot_spec {content : List (BitVec 8)} (hlen : content.length = 4096)
    (parent self : UInt32) : ∃ dot dotdot : DirRecord,
      DirContent.initDotDotdot content parent self 4096 = some (contents [dot, dotdot]) ∧
      dot.entry = ⟨self, 12, 1, Ext4DirEntry.dtDir, [0x2E]⟩ ∧
      dotdot.entry = ⟨parent, 4084, 2, Ext4DirEntry.dtDir, [0x2E, 0x2E]⟩ := by
  have hfront : (content.take 12).length = 12 := by
    rw [List.length_take, hlen]
    rfl
  have hback : (content.drop 12).length = 4084 := by rw [List.length_drop, hlen]
  obtain ⟨dot, hdot, hdotLen, hwrite⟩ := @write_region [] (content.take 12) (content.drop 12)
    ⟨self, 12, 1, Ext4DirEntry.dtDir, [0x2E]⟩ 9 (show 1 ≤ 1 from le_rfl) (by rw [hfront])
    (by rw [hfront]; rfl) (by rw [hfront]; exact (show 8 + 1 ≤ 12 by decide))
    (show 0 + 8 + 1 ≤ 9 from le_rfl)
  obtain ⟨dotdot, hdotdot, -, hwrite'⟩ := @write_region dot.bytes (content.drop 12) []
    ⟨parent, 4084, 2, Ext4DirEntry.dtDir, [0x2E, 0x2E]⟩ 22 (show 2 ≤ 2 from le_rfl)
    (by rw [hback]) (by rw [hback]; rfl) (by rw [hback]; exact (show 8 + 2 ≤ 4084 by decide))
    (by rw [hdotLen, hfront]; exact (show 12 + 8 + 2 ≤ 22 from le_rfl))
  rw [List.nil_append, List.nil_append, List.take_append_drop, List.length_nil] at hwrite
  rw [List.append_nil, hdotLen, hfront] at hwrite'
  refine ⟨dot, dotdot, ?_, hdot, hdotdot⟩
  rw [DirContent.initDotDotdot]
  simp only [Option.bind_eq_bind]
  rw [hwrite, Option.bind_some]
  exact hwrite'

/-! ### Directories of one block -/

namespace Ext4Inode

variable {ino : Ext4Inode} {fs : Ext4FileSystem} {content content' : List (BitVec 8)} {num : UInt32}
  {ty : UInt8}

/-- A directory of one block, which is in the cache. -/
structure OneBlock (ino : Ext4Inode) (content : List (BitVec 8)) : Prop where
  size : ino.getSize = 4096
  page : ∃ p, ino.pages[0]? = some p ∧ p.slice 0 pageSize = content

theorem OneBlock.length (h : ino.OneBlock content) : content.length = 4096 := by
  obtain ⟨p, -, rfl⟩ := h.page
  simp [Page.slice, pageSize]

theorem OneBlock.shows (h : ino.OneBlock content) : ino.Shows 0 content := by
  obtain ⟨p, hp, rfl⟩ := h.page
  have hlo : ino.inodeOnDisk.sizeLo = 4096 := by
    change ino.getSize % 2 ^ 32 = 4096
    rw [h.size]
    rfl
  have hnil : ino.Shows 0 [] := ⟨Nat.zero_le _, fun k hk => absurd hk (by simp)⟩
  exact @Shows.append_slice ino 0 pageSize [] p hnil hp (by decide) (by rw [hlo]; decide)

theorem OneBlock.read (h : ino.OneBlock content) (fs : Ext4FileSystem) :
    ino.readInto fs 0 (List.replicate ino.getSize 0) = some (content, ino) := by
  have hread := @read_of_shows ino fs 0 content h.shows
  rw [h.length] at hread
  rw [readInto, List.length_replicate, h.size, hread, Option.map_some]
  dsimp only
  rw [h.length, List.drop_eq_nil_of_le (by rw [List.length_replicate]), List.append_nil]

theorem OneBlock.sound (h : ino.OneBlock (contents rs)) (hres : Reserved rs) (fs : Ext4FileSystem) :
    Sound (ino, fs) rs :=
  ⟨h.shows.directory (h.length.trans h.size.symm) fs, by rw [h.length], hres⟩

theorem OneBlock.write (h : ino.OneBlock content) (hlen : content'.length = 4096) :
    ∃ n ino', ino.write fs 0 content' = some (n, ino', fs) ∧ ino'.OneBlock content' := by
  obtain ⟨p, hp, -⟩ := h.page
  have hne : content' ≠ [] := by
    rintro rfl
    cases hlen
  have hpage : ino.writePage fs (0 / pageSize) none = some (p, none, ino, fs) := by
    rw [Nat.zero_div, writePage, hp]
  have hwrite := @write_onePage ino fs 0 content' hne (by rw [hlen]; decide) (by omega)
    (by rw [h.size, hlen]) (by rw [h.size]; decide)
  rw [hpage, Option.map_some] at hwrite
  refine ⟨_, _, hwrite, h.size, p.copyIn 0 content', ?_, ?_⟩
  · rw [Nat.zero_div, Nat.zero_mod, getElem?_insertPage, if_pos rfl]
  · refine List.ext_getElem (by simp [Page.slice, pageSize, hlen]) fun k hk hk' => ?_
    have hdata := @copyIn_data 0 p content' k hk'
    rw [Nat.zero_add] at hdata
    simpa [Page.slice] using hdata

/-- An entry is added to a directory of one block, and the checksum stored. -/
theorem OneBlock.addEntry {seed generation : UInt32} (h : ino.OneBlock (contents rs))
    (hadd : DirContent.addEntry (contents rs) name num ty = some (.ok (contents rs')))
    (hres : Reserved rs') : ∃ ino' rs'',
      ino.addEntry fs seed generation name num ty = some (ino', fs) ∧
        ino'.OneBlock (contents rs'') ∧ rs''.map DirRecord.entry = rs'.map DirRecord.entry := by
  have hlen : (contents rs').length = 4096 := (length_addEntryLoop hadd).trans h.length
  obtain ⟨content'', hcsum⟩ := @exists_setDirblockCsum ino seed generation (contents rs') (by omega)
  obtain ⟨rs'', rfl, hentries⟩ := setDirblockCsum_contents hres hcsum
  obtain ⟨n, ino', hwrite, hone⟩ := @OneBlock.write ino fs _ _ h
    ((length_contents_congr hentries).trans hlen)
  refine ⟨ino', rs'', ?_, hone, hentries⟩
  simp only [Ext4Inode.addEntry, h.read fs, Option.bind_eq_bind, Option.bind_some, hadd, hcsum, hwrite]
  rfl

end Ext4Inode

/-! ### Directories with room behind their last record -/

section Filling

variable {tight : List DirRecord} {last new q : DirRecord} {free : ℕ} {num : UInt32} {ty : UInt8}

/-- A record in use that has no room behind its name. -/
def DirRecord.Tight (r : DirRecord) : Prop := r.live = true ∧ r.bytes.length = r.used

/-- Behind the last record, and nowhere else, there are so many bytes to be had. -/
def Filled (free : ℕ) (rs : List DirRecord) : Prop :=
  ∃ tight last, rs = tight ++ [last] ∧ (∀ r ∈ tight, r.Tight) ∧ last.live = true ∧
    last.bytes.length = last.used + free

/-- The entry says what a record has to offer. -/
theorem offer_congr (h : q.entry = r.entry) :
    q.live = r.live ∧ q.used = r.used ∧ q.bytes.length = r.bytes.length := by
  have hlive : q.live = r.live := by rw [DirRecord.live, DirRecord.live, h]
  refine ⟨hlive, ?_, ?_⟩
  · rw [DirRecord.used, DirRecord.used, hlive, h]
  · rw [← q.covers, ← r.covers, h]

theorem Filled.congr (h : Filled free rs) (hentries : rs'.map DirRecord.entry = rs.map DirRecord.entry) :
    Filled free rs' := by
  obtain ⟨tight, last, rfl, htight, hlive, hfree⟩ := h
  rw [List.map_append] at hentries
  obtain ⟨tight', rest, rfl, hfront, hback⟩ := List.map_eq_append_iff.mp hentries
  obtain ⟨last', rfl, hlast⟩ := List.map_eq_singleton_iff.mp hback
  obtain ⟨hlive', hused', hlen'⟩ := offer_congr hlast
  refine ⟨tight', last', rfl, fun r hr => ?_, by rw [hlive', hlive], by rw [hlen', hused', hfree]⟩
  have hmem : r.entry ∈ tight.map DirRecord.entry := hfront ▸ List.mem_map_of_mem hr
  obtain ⟨t, ht, hentry⟩ := List.mem_map.mp hmem
  obtain ⟨hlive, hused, hlen⟩ := offer_congr hentry.symm
  exact ⟨by rw [hlive, (htight t ht).1], by rw [hlen, hused, (htight t ht).2]⟩

/-- A tight record takes nothing. -/
theorem DirRecord.Tight.takes (h : r.Tight) (hname : (nameBytes name).length ≤ 255) :
    r.takes name = false := by
  by_contra htakes
  have hroom := room_of_takes_live hname h.1 (by simpa using htakes)
  have hlen := h.2
  rw [DirRecord.used, if_pos h.1] at hlen
  omega

/-- The last record takes an entry that fits. -/
theorem takes_last (hlive : last.live = true) (hfree : last.bytes.length = last.used + free)
    (hname : (nameBytes name).length ≤ 255) (hfits : ((nameBytes name).length + 11) / 4 * 4 ≤ free) :
    last.takes name = true := by
  have hneeded := toNat_neededLen hname
  have hcovers := last.covers
  have hlt := last.entry.recLen.toNat_lt
  rw [DirRecord.used, if_pos hlive] at hfree
  rw [DirRecord.takes, if_pos hlive]
  refine decide_eq_true (UInt16.le_iff_toNat_le.mpr ?_)
  rw [UInt16.toNat_add, Nat.mod_eq_of_lt (by omega)]
  omega

/-- Which record takes the entry. -/
theorem eq_of_takes_last {before after : List DirRecord} (htight : ∀ r ∈ tight, r.Tight)
    (hname : (nameBytes name).length ≤ 255) (htakes : last.takes name = true)
    (hsplit : tight ++ [last] = before ++ r :: after) (hbefore : ∀ b ∈ before, b.takes name = false)
    (hr : r.takes name = true) : before = tight ∧ r = last ∧ after = [] := by
  obtain ⟨htake, hdrop⟩ := @takeWhile_split before after r (fun r => !r.takes name)
    (by simpa using hbefore) (by simp [hr])
  obtain ⟨htake', hdrop'⟩ := @takeWhile_split tight [] last (fun r => !r.takes name)
    (by simpa using fun r hr => (htight r hr).takes hname) (by simp [htakes])
  rw [← hsplit] at htake hdrop
  obtain ⟨rfl, rfl⟩ := List.cons_eq_cons.mp (hdrop'.symm.trans hdrop)
  exact ⟨htake.symm.trans htake', rfl, rfl⟩

/-- **An entry that fits goes behind the last record.** -/
theorem Filled.addEntry (h : Filled free rs) (hname : (nameBytes name).length ≤ 255)
    (hfits : ((nameBytes name).length + 11) / 4 * 4 ≤ free) (hnum : num ≠ 0) :
    ∃ front new, DirContent.addEntry (contents rs) name num ty =
        some (.ok (contents (front ++ [new]))) ∧
      Filled (free - ((nameBytes name).length + 11) / 4 * 4) (front ++ [new]) ∧
      new.entry = DirContent.newEntry name num (UInt16.ofNat free) ty ∧ new.bytes.length = free := by
  obtain ⟨tight, last, rfl, htight, hlive, hfree⟩ := h
  have htakes := takes_last hlive hfree hname hfits
  rcases @addEntry_records (tight ++ [last]) name num ty (roomy_of_short hname) with ⟨hnone, -⟩ |
    ⟨before, r, after, front, new, hsplit, hbefore, hr, hfitted, hput⟩
  · rw [hnone last (by simp)] at htakes
    cases htakes
  · obtain ⟨rfl, rfl, rfl⟩ := eq_of_takes_last htight hname htakes hsplit hbefore hr
    have hlength := hfitted.length
    have hused := hfitted.used
    have hentry := hfitted.entry
    rw [stored_of_whole (newEntry_name hname _)] at hentry
    rcases hfitted.kept with ⟨hdead, -⟩ | ⟨-, old, rfl, hold⟩
    · rw [hlive] at hdead
      cases hdead
    · rw [contents_cons, contents_nil, List.append_nil] at hlength hused
      have hnewLen : new.bytes.length = free := by omega
      have hrec : new.entry.recLen = UInt16.ofNat free := by
        rw [← hnewLen, ← new.covers, UInt16.ofNat_toNat]
      have hnewLive : new.live = true := by
        rw [DirRecord.live, hentry]
        exact decide_eq_true hnum
      have hnewUsed : new.used = ((nameBytes name).length + 11) / 4 * 4 := by
        rw [DirRecord.used, if_pos hnewLive, hentry]
        change (DirContent.neededLen (UInt8.ofNat (nameBytes name).length).toNat).toNat = _
        rw [toNat_nameLen hname, toNat_neededLen hname]
      have holdLive : old.live = true := by
        rw [← hlive, DirRecord.live, DirRecord.live, hold]
      have holdUsed : old.used = r.used := by
        rw [DirRecord.used, if_pos holdLive, DirRecord.used, if_pos hlive, hold]
      refine ⟨before ++ [old], new, by rw [hput, List.append_nil, List.append_assoc],
        ⟨before ++ [old], new, rfl, ?_, hnewLive, by omega⟩, by rw [hentry, hrec], hnewLen⟩
      intro q hq
      rcases List.mem_append.mp hq with hq | hq
      · exact htight q hq
      · rw [List.mem_singleton.mp hq]
        exact ⟨holdLive, by omega⟩

/-- An entry that fits, and four bytes more. -/
theorem Filled.clear (h : Filled free rs) (hname : (nameBytes name).length ≤ 255)
    (hfits : ((nameBytes name).length + 11) / 4 * 4 ≤ free)
    (hroom : 12 + (nameBytes name).length ≤ free) : AddClear name rs := by
  obtain ⟨tight, last, rfl, htight, hlive, hfree⟩ := h
  have htakes := takes_last hlive hfree hname hfits
  rw [AddClear, (@takeWhile_split tight [] last (fun r => !r.takes name)
    (by simpa using fun r hr => (htight r hr).takes hname) (by simp [htakes])).2]
  change last.used + 8 + (nameBytes name).length % 256 + 4 ≤ last.bytes.length
  rw [Nat.mod_eq_of_lt (by omega)]
  omega

/-- Names that just fit are written to the same place. -/
theorem Filled.addEntry_bytes (h : Filled free rs) (hmax : free ≤ 263) (hfour : free % 4 = 0) :
    ∃ pre, ∀ name, (nameBytes name).length + 8 = free →
      DirContent.addEntry (contents rs) name num ty =
        some (.ok (pre ++ (DirContent.newEntry name num (UInt16.ofNat free) ty).bytes)) := by
  obtain ⟨tight, last, rfl, htight, hlive, hfree⟩ := h
  have hino : last.entry.inodeNum ≠ 0 := by simpa [DirRecord.live] using hlive
  have hused : last.used = (DirContent.neededLen last.entry.nameLen.toNat).toNat := by
    rw [DirRecord.used, if_pos hlive]
  have hrest : last.entry.recLen - DirContent.neededLen last.entry.nameLen.toNat =
      UInt16.ofNat free := by
    have hle : DirContent.neededLen last.entry.nameLen.toNat ≤ last.entry.recLen :=
      UInt16.le_iff_toNat_le.mpr (by rw [last.covers]; omega)
    have hsub := UInt16.toNat_sub_of_le _ _ hle
    rw [last.covers, ← hused] at hsub
    rw [← UInt16.toNat_inj, hsub, UInt16.toNat_ofNat', Nat.mod_eq_of_lt (by omega)]
    omega
  -- the first write does not know the name
  let e : Ext4DirEntry :=
    { last.entry with recLen := DirContent.neededLen last.entry.nameLen.toNat }
  obtain ⟨content₁, hwrite⟩ : ∃ c, e.writeToMem (contents tight ++ (last.bytes ++ contents []))
      (contents tight).length (contents tight ++ (last.bytes ++ contents [])).length = some c := by
    have hown : e.nameLen.toNat ≤ e.name.length := last.length_name.ge
    have hfits := last.length_bytes.2.2
    refine Option.ne_none_iff_exists'.mp ((writeToMem_ne_none hown).mpr ?_)
    simp only [List.length_append]
    change (contents tight).length + 8 + last.entry.nameLen.toNat ≤ _
    omega
  refine ⟨content₁.take ((contents tight).length + last.used), fun name hlen => ?_⟩
  have hname : (nameBytes name).length ≤ 255 := by omega
  have htakes := takes_last hlive hfree hname (by omega)
  have hwhole := @newEntry_name name num ty hname (UInt16.ofNat free)
  have hbytes : (DirContent.newEntry name num (UInt16.ofNat free) ty).bytes.length = free := by
    rw [length_entryBytes hwhole, ← hwhole]
    change 8 + (nameBytes name).length = free
    omega
  have hsecond : (DirContent.newEntry name num (UInt16.ofNat free) ty).writeToMem content₁
      ((contents tight).length + last.used)
      (contents tight ++ (last.bytes ++ contents [])).length =
        some (content₁.take ((contents tight).length + last.used) ++
          (DirContent.newEntry name num (UInt16.ofNat free) ty).bytes) := by
    have hlen₁ := length_writeToMem hwrite
    have htotal : (contents tight ++ (last.bytes ++ contents [])).length =
        (contents tight).length + (last.used + free) := by
      rw [List.length_append, List.length_append, hfree, contents_nil, List.length_nil, Nat.add_zero]
    rw [Ext4DirEntry.writeToMem, if_neg (by omega), blit, if_pos (by omega), hbytes,
      List.drop_eq_nil_of_le (by omega), List.append_nil]
  rcases @addEntryLoop_first [] (tight ++ [last]) _ name num ty (length_contents_le _) with ⟨hnone, -⟩ |
    ⟨before, r, after, f, hsplit, hbefore, hr, hloop⟩
  · rw [hnone last (by simp)] at htakes
    cases htakes
  · obtain ⟨rfl, rfl, rfl⟩ := eq_of_takes_last htight hname htakes hsplit hbefore hr
    rw [List.nil_append, List.nil_append, contents_cons, addEntryLoop_record,
      if_neg fun hdead => hino hdead.1, if_pos ⟨hino, (DirRecord.takes_live_iff hino).mp hr⟩,
      hrest, ← hused] at hloop
    rw [DirContent.addEntry]
    refine hloop.trans ?_
    change (e.writeToMem _ _ _).bind _ = _
    rw [hwrite, Option.bind_some]
    change (Ext4DirEntry.writeToMem _ _ _ _).bind _ = _
    rw [hsecond]
    rfl

end Filling

/-! ### A name in the last bytes -/

/-- The checksum looks at the bytes in front of the last twelve. -/
theorem setDirblockCsum_congr {ino : Ext4Inode} {bs bs' : List (BitVec 8)}
    (hlen : bs'.length = bs.length) (hsame : bs'.take (bs.length - 4) = bs.take (bs.length - 4)) :
    ino.setDirblockCsum seed generation bs' = ino.setDirblockCsum seed generation bs := by
  unfold Ext4Inode.setDirblockCsum
  by_cases h : bs.length < 12
  · rw [if_pos h, if_pos (by omega)]
  · have hfront : bs'.take (bs.length - 12) = bs.take (bs.length - 12) := by
      have htake := congrArg (List.take (bs.length - 12)) hsame
      rwa [List.take_take, List.take_take, Nat.min_eq_left (by omega)] at htake
    have hpos : bs.length - 12 + 8 = bs.length - 4 := by omega
    rw [if_neg h, if_neg (by omega)]
    dsimp only
    rw [hlen, hfront, hpos, blit, blit, hlen, length_leList, if_pos (by omega), if_pos (by omega),
      hsame, List.drop_eq_nil_of_le (by omega), List.drop_eq_nil_of_le (by omega)]

/-- The block of a directory that `init_dot_dotdot` has filled, in the cache. -/
def dotsDirectory : Ext4Inode :=
  { Ext4Inode.fullDirectory 1 with
    pages := (∅ : Std.TreeMap ℕ Page).insert 0
      ⟨toBuffer ((DirContent.initDotDotdot (List.replicate 4096 0) 2 2 4096).getD []), false⟩ }

/-- Its records, which leave 4072 bytes behind the second name. -/
theorem oneBlock_dotsDirectory : ∃ dot dotdot : DirRecord,
    dotsDirectory.OneBlock (contents [dot, dotdot]) ∧
      dot.entry = ⟨2, 12, 1, Ext4DirEntry.dtDir, [0x2E]⟩ ∧
      dotdot.entry = ⟨2, 4084, 2, Ext4DirEntry.dtDir, [0x2E, 0x2E]⟩ := by
  obtain ⟨dot, dotdot, hinit, hdot, hdotdot⟩ :=
    @initDotDotdot_spec (List.replicate 4096 0) List.length_replicate 2 2
  have hlen : (contents [dot, dotdot]).length = 4096 := by
    rw [contents_cons, contents_cons, contents_nil, List.append_nil, List.length_append,
      ← dot.covers, ← dotdot.covers, hdot, hdotdot]
    rfl
  refine ⟨dot, dotdot, ⟨rfl, ⟨toBuffer (contents [dot, dotdot]), false⟩, ?_, ?_⟩, hdot, hdotdot⟩
  · rw [dotsDirectory, hinit, Option.getD_some]
    exact Std.TreeMap.getElem?_insert_self
  · refine List.ext_getElem (by rw [hlen]; simp [Page.slice, pageSize]) fun k hk hk' => ?_
    simp only [Page.slice, List.getElem_map, List.getElem_range', Nat.zero_add, one_mul, toBuffer]
    exact List.getD_eq_getElem _ _ hk'

theorem filled_dotsDirectory {dot dotdot : DirRecord}
    (hdot : dot.entry = ⟨2, 12, 1, Ext4DirEntry.dtDir, [0x2E]⟩)
    (hdotdot : dotdot.entry = ⟨2, 4084, 2, Ext4DirEntry.dtDir, [0x2E, 0x2E]⟩) :
    Filled 4072 [dot, dotdot] := by
  have hlive : dot.live = true := by rw [DirRecord.live, hdot]; rfl
  have hlive' : dotdot.live = true := by rw [DirRecord.live, hdotdot]; rfl
  refine ⟨[dot], dotdot, rfl, fun r hr => ?_, hlive', ?_⟩
  · rw [List.mem_singleton.mp hr]
    refine ⟨hlive, ?_⟩
    rw [DirRecord.used, if_pos hlive, ← dot.covers, hdot]
    rfl
  · rw [DirRecord.used, if_pos hlive', ← dotdot.covers, hdotdot]
    rfl

/-- Names of 255 letters, which take 264 bytes each. -/
def longName (i : ℕ) : Name := Char.ofNat (97 + i) :: List.replicate 254 'x'

/-- The first `k` of them are added. -/
def fillCalls (k : ℕ) : List DirCall :=
  (List.range k).map fun i => .addEntry (longName i) (UInt32.ofNat (13 + i)) 1

theorem fillCalls_succ (k : ℕ) : fillCalls (k + 1) =
    fillCalls k ++ [.addEntry (longName k) (UInt32.ofNat (13 + k)) 1] := by
  rw [fillCalls, List.range_succ, List.map_append]
  rfl

theorem length_longName : ∀ i < 15, (nameBytes (longName i)).length = 255 := by
  intro i hi
  have hfirst : ∀ i < 15, (String.utf8EncodeChar (Char.ofNat (97 + i))).length = 1 := by decide
  refine (length_nameBytes fun c hc => ?_).trans ?_
  · rcases List.mem_cons.mp hc with rfl | hc
    · exact hfirst i hi
    · rw [List.eq_of_mem_replicate hc]
      rfl
  · rw [longName, List.length_cons, List.length_replicate]

/-- **The block fills up** behind the two records it has. -/
theorem exists_filled {k : ℕ} (hk : k ≤ 15) : ∃ ino rs,
    (fillCalls k).foldlM (DirCall.step 0 0) (dotsDirectory, Ext4Inode.fullDirectoryFs 1) =
        some (ino, Ext4Inode.fullDirectoryFs 1) ∧
      ino.OneBlock (contents rs) ∧ Filled (4072 - 264 * k) rs := by
  induction k with
  | zero =>
    obtain ⟨dot, dotdot, hone, hdot, hdotdot⟩ := oneBlock_dotsDirectory
    exact ⟨dotsDirectory, [dot, dotdot], rfl, hone, filled_dotsDirectory hdot hdotdot⟩
  | succ k ih =>
    obtain ⟨ino, rs, hrun, hone, hfilled⟩ := ih (by omega)
    have hname := length_longName k (by omega)
    have hnum : UInt32.ofNat (13 + k) ≠ 0 := by
      intro h
      have hzero := congrArg UInt32.toNat h
      rw [UInt32.toNat_ofNat', Nat.mod_eq_of_lt (by omega), UInt32.toNat_zero] at hzero
      omega
    obtain ⟨front, new, hadd, hfilled', hentry, hlen⟩ := @Filled.addEntry rs (longName k) _ _ 1
      hfilled hname.le (by omega) hnum
    have hres : Reserved (front ++ [new]) := by
      rw [reserved_concat, hentry, hlen]
      change 12 + (UInt8.ofNat (nameBytes (longName k)).length).toNat ≤ _
      rw [hname]
      change 12 + 255 ≤ _
      omega
    obtain ⟨ino', rs', hstep, hone', hentries⟩ := @Ext4Inode.OneBlock.addEntry rs _ (longName k) ino
      (Ext4Inode.fullDirectoryFs 1) _ _ 0 0 hone hadd hres
    have hfree : 4072 - 264 * k - (255 + 11) / 4 * 4 = 4072 - 264 * (k + 1) := by omega
    rw [hname, hfree] at hfilled'
    refine ⟨ino', rs', ?_, hone', hfilled'.congr hentries⟩
    have hcall : DirCall.step 0 0 (ino, Ext4Inode.fullDirectoryFs 1)
        (.addEntry (longName k) (UInt32.ofNat (13 + k)) 1) =
          some (ino', Ext4Inode.fullDirectoryFs 1) := hstep
    rw [fillCalls_succ, List.foldlM_append, hrun]
    simp only [Option.bind_eq_bind, Option.bind_some, List.foldlM_cons, List.foldlM_nil, hcall]
    rfl

/-- Each of the fifteen names leaves room behind it. -/
theorem clear_fillCalls {k : ℕ} (hk : k ≤ 15) : Run.AlongSome (DirCall.step 0 0)
    (fun s call => call.Clear s) (dotsDirectory, Ext4Inode.fullDirectoryFs 1) (fillCalls k) := by
  induction k with
  | zero => trivial
  | succ k ih =>
    obtain ⟨ino, rs, hrun, hone, hfilled⟩ := exists_filled (k := k) (by omega)
    rw [fillCalls_succ]
    refine (ih (by omega)).concat fun s hs rs' ino' hread => ?_
    rw [hrun] at hs
    cases hs
    have hname := length_longName k (by omega)
    have hrs := congrArg Prod.fst (Option.some.inj ((hone.read _).symm.trans hread))
    rw [← contents_injective hrs]
    exact hfilled.clear hname.le (by omega) (by omega)

/-- Fifteen long names are added, and no checksum changes an entry. -/
theorem harmless_along_fill : ∃ rs, Sound (dotsDirectory, Ext4Inode.fullDirectoryFs 1) rs ∧
    Run.AlongSome (DirCall.step 0 0) (fun s call => call.Harmless 0 0 s)
      (dotsDirectory, Ext4Inode.fullDirectoryFs 1) (fillCalls 15) := by
  obtain ⟨dot, dotdot, hone, hdot, hdotdot⟩ := oneBlock_dotsDirectory
  have hsound : Sound (dotsDirectory, Ext4Inode.fullDirectoryFs 1) [dot, dotdot] := by
    refine hone.sound ((@reserved_concat dotdot [dot]).mpr ?_) _
    rw [← dotdot.covers, hdotdot]
    decide
  exact ⟨_, hsound, harmless_along 0 0 hsound (clear_fillCalls le_rfl)⟩

/-- Two names of 104 letters that differ in the last four. -/
def lastName (c : Char) : Name := List.replicate 100 'z' ++ List.replicate 4 c

theorem length_lastName {c : Char} (h : (String.utf8EncodeChar c).length = 1) :
    (nameBytes (lastName c)).length = 104 := by
  refine (length_nameBytes fun d hd => ?_).trans ?_
  · rcases List.mem_append.mp hd with hd | hd
    · rw [List.eq_of_mem_replicate hd]
      rfl
    · rw [List.eq_of_mem_replicate hd, h]
  · rw [lastName, List.length_append, List.length_replicate, List.length_replicate]

/-- The records that a name of 104 bytes makes of a block with 112 bytes left. -/
theorem Filled.addEntry_lastName (h : Filled 112 rs) : ∃ pre, ∀ name,
    (nameBytes name).length = 104 → ∃ front new,
      DirContent.addEntry (contents rs) name 99 1 = some (.ok (contents (front ++ [new]))) ∧
      contents (front ++ [new]) = pre ++ (DirContent.newEntry name 99 112 1).bytes ∧
      new.entry = DirContent.newEntry name 99 112 1 := by
  obtain ⟨pre, hput⟩ := @Filled.addEntry_bytes rs 112 99 1 h (by decide) (by decide)
  refine ⟨pre, fun name hname => ?_⟩
  obtain ⟨front, new, hadd, -, hentry, -⟩ := @Filled.addEntry rs name 112 99 1 h
    (by omega) (by omega) (by decide)
  have hbytes := hput name (by omega)
  rw [hadd, Option.some.injEq, Except.ok.injEq] at hbytes
  exact ⟨front, new, hadd, hbytes, hentry⟩

/-- Two listings that end with these names are not the same. -/
theorem dirents_lastName {front front' : List DirRecord} {new new' : DirRecord}
    (hnew : new.entry = DirContent.newEntry (lastName 'a') 99 112 1)
    (hnew' : new'.entry = DirContent.newEntry (lastName 'b') 99 112 1)
    (hlen : (contents (front ++ [new])).length = 4096)
    (hlen' : (contents (front' ++ [new'])).length = 4096) :
    dirents 0 (front ++ [new]) ≠ dirents 0 (front' ++ [new']) := by
  intro heq
  have hone (xs : List DirRecord) {r : DirRecord} (hr : r.entry.inodeNum = 99)
      (htotal : (contents (xs ++ [r])).length = 4096) :
      dirents 0 (xs ++ [r]) = dirents 0 xs ++ DirContent.linuxDirent r.entry 4096 := by
    have hend : 0 + (contents xs).length + r.bytes.length = 4096 := by
      rw [contents_append, contents_cons, contents_nil, List.append_nil, List.length_append] at htotal
      rw [Nat.zero_add, htotal]
    have hlive : r.live = true := by
      rw [DirRecord.live, hr]
      rfl
    rw [dirents_append, dirents, if_pos hlive, hend, dirents, List.append_nil]
  rw [hone front (by rw [hnew]; rfl) hlen, hone front' (by rw [hnew']; rfl) hlen', hnew, hnew'] at heq
  have hlast := (List.append_inj' heq (by decide +kernel)).2
  exact absurd hlast (by decide +kernel)

/-- **The checksum overwrites a name.**  Behind fifteen names of 255 letters a name of 104 letters
reaches to the end of the block.  The checksum is the same for two names that differ in the last
four letters, so that one of them at least is not what it was. -/
theorem last_name_overwritten : ¬ ∀ calls, Run.AlongSome (DirCall.step 0 0)
    (fun s call => call.Harmless 0 0 s) (dotsDirectory, Ext4Inode.fullDirectoryFs 1) calls := by
  intro h
  obtain ⟨ino, rs, hrun, hone, hfilled⟩ := exists_filled (k := 15) le_rfl
  obtain ⟨pre, hput⟩ := hfilled.addEntry_lastName
  obtain ⟨front, new, hadd, hbytes, hnew⟩ := hput _ (@length_lastName 'a' rfl)
  obtain ⟨front', new', hadd', hbytes', hnew'⟩ := hput _ (@length_lastName 'b' rfl)
  have hlen := (Ext4Inode.length_addEntryLoop hadd).trans hone.length
  have hlen' := (Ext4Inode.length_addEntryLoop hadd').trans hone.length
  -- the bytes in front of the last four are the same
  have hhead : (DirContent.newEntry (lastName 'b') 99 112 1).bytes.take 108 =
      (DirContent.newEntry (lastName 'a') 99 112 1).bytes.take 108 := by decide +kernel
  have hcount : (DirContent.newEntry (lastName 'a') 99 112 1).bytes.length = 112 := by
    decide +kernel
  have hpre : pre.length + 112 = 4096 := by
    rw [hbytes, List.length_append, hcount] at hlen
    exact hlen
  have hsame : (contents (front' ++ [new'])).take ((contents (front ++ [new])).length - 4) =
      (contents (front ++ [new])).take ((contents (front ++ [new])).length - 4) := by
    have htake : 4096 - 4 - pre.length = 108 := by omega
    rw [hlen, hbytes, hbytes', List.take_append, List.take_append, htake, hhead]
  have hcsum := @setDirblockCsum_congr 0 0 ino _ _ (hlen'.trans hlen.symm) hsame
  obtain ⟨content'', hstored⟩ := @exists_setDirblockCsum ino 0 0 (contents (front ++ [new])) (by omega)
  have hread := hone.read (Ext4Inode.fullDirectoryFs 1)
  have hlist := ((h (fillCalls 15 ++ [.addEntry (lastName 'a') 99 1])).mid hrun _ _ _ _ hread
    (by rw [DirCall.edited, hadd]) hstored).2
  have hlist' := ((h (fillCalls 15 ++ [.addEntry (lastName 'b') 99 1])).mid hrun _ _ _ _ hread
    (by rw [DirCall.edited, hadd']) (hcsum.trans hstored)).2
  -- so both would list the same
  have hboth := (hlist ((dirents 0 (front ++ [new])).length +
    (dirents 0 (front' ++ [new'])).length)).symm.trans (hlist' _)
  rw [getdents_whole (Nat.le_add_right _ _), getdents_whole (Nat.le_add_left _ _)] at hboth
  exact dirents_lastName hnew hnew' hlen hlen' (congrArg Prod.snd (Option.some.inj hboth))

end QuackOS.Ext4
