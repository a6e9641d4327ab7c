import QuackOS.Ext4.DirFiles
import QuackOS.Ext4.DirUpdates
import QuackOS.Ext4.ExtentMap

/-!
# Directories that grow

A directory in which no record takes a new entry gets one more block.  `add_entry` then reads
from the old end into the buffer it has, which is as long as the directory was, and writes all
of it behind the old end.

* `Ext4Inode.Enumerates`, `liveEntries` — what `getdents` says is in the directory;
* `Ext4Inode.Grows` — what adding to a full directory should do;
* `Ext4Inode.extends_iff_of_room` — where the root of the tree has room, a block can be had exactly
  when one is free;
* `Ext4Inode.extendDir_size` — the size is doubled;
* `Ext4Inode.addEntry_grows_iff` — **a directory grows as it should exactly when it has one
  block, a block can be had for it, and it has links.**
-/

namespace QuackOS.Ext4

open Buffer

/-- The entries in use: the inode number, the type and the name of each. -/
def liveEntries (rs : List DirRecord) : List (UInt32 × UInt8 × List (BitVec 8)) :=
  (rs.filter DirRecord.live).map fun r => (r.entry.inodeNum, r.entry.fileType, r.entry.name)

namespace Ext4Inode

variable {ino ino' ino₁ : Ext4Inode} {fs fs' : Ext4FileSystem} {off n : ℕ}
  {bs buf data more : List (BitVec 8)} {rs : List DirRecord} {name : Name} {num : UInt32} {ty : UInt8}

/-- `getdents` from the start, with a buffer that is long enough, returns these records. -/
def Enumerates (ino : Ext4Inode) (fs : Ext4FileSystem) (rs : List DirRecord) : Prop :=
  ∀ bufLen, (dirents 0 rs).length ≤ bufLen →
    ∃ ino', ino.getdents fs 0 bufLen = some (some ((contents rs).length, dirents 0 rs), ino')

/-- **What adding to a full directory should do**: it comes back, with a directory that is one
block longer and has one more entry in use. -/
def Grows (ino : Ext4Inode) (fs : Ext4FileSystem) (seed generation : UInt32) (rs : List DirRecord)
    (name : Name) (num : UInt32) (ty : UInt8) : Prop :=
  ∃ ino' fs' rs', ino.addEntry fs seed generation name num ty = some (ino', fs') ∧
    ino'.getSize = ino.getSize + 4096 ∧ ino'.Enumerates fs' rs' ∧
    (liveEntries rs').Perm ((num, ty, nameBytes name) :: liveEntries rs)

/-- The inode with another root and a size of two blocks. -/
def twoBlocks (ino : Ext4Inode) (d : Ext4InodeDisk) : Ext4Inode :=
  { ino with inodeOnDisk := d }.setSize 8192

/-- A block can be had for the second page of a directory, and the page comes into the cache:
it is there, or the tree has the block, or there is one more that the tree takes. -/
def Extends (ino : Ext4Inode) (fs : Ext4FileSystem) : Prop :=
  ∃ newBlock fs₁ r d fs₂, fs.allocOneBlock = some (newBlock, fs₁) ∧
    ino.inodeOnDisk.insertExtent 1 newBlock 1 fs₁ = some (r, d, fs₂) ∧
    ((ino.twoBlocks d).writePage fs₂ 1 none).isSome

/-! ## A block that can be had -/

section Room

open Ext4ExtentBlock Ext4InodeDisk

theorem covers_new_one (p : ℕ) : (Ext4Extent.new 1 (1 : UInt32).toUInt16 p).covers 1 = true := by
  rfl

/-- A leaf root with room takes a block behind the first one, and maps it then. -/
theorem exists_insertExtent {d : Ext4InodeDisk} (hdepth : (extentHeader d.block).depth = 0)
    (hroom : (extentHeader d.block).entries < (extentHeader d.block).max)
    (hord : Ext4Extent.Ordered (extents d.block)) (p : ℕ) (fs : Ext4FileSystem) :
    ∃ d', d.insertExtent 1 p 1 fs = some (.ok (), d', fs) ∧ (d'.lookupExtent fs 1).isSome := by
  have hlt := UInt16.lt_iff_toNat_lt.mp hroom
  have hmax := (extentHeader d.block).max.toNat_lt
  have hfound : ∀ {d' : Ext4InodeDisk} {e : Ext4Extent}, (extentHeader d'.block).depth = 0 →
      e ∈ extents d'.block → e.covers 1 = true → (d'.lookupExtent fs 1).isSome = true := by
    intro d' e hdepth' he hcov
    rw [lookupExtent_root hdepth', List.find?_isSome]
    exact ⟨e, he, hcov⟩
  unfold Ext4InodeDisk.insertExtent
  dsimp only
  rw [if_neg (by rw [hdepth]; decide)]
  split
  · rename_i i hi
    obtain ⟨hlti, hm, -⟩ := List.findIdx?_eq_some_iff_getElem.mp hi
    have hget : (extents d.block)[i]? = some (extents d.block)[i] := List.getElem?_eq_getElem hlti
    set e := (extents d.block)[i] with he
    have hstop := hord.stop_lt e (List.getElem_mem hlti)
    refine ⟨_, rfl, @hfound { d with block := growSlot d.block i 1 }
      { e with len := e.len + (1 : UInt32).toUInt16 } (by rw [extentHeader_growSlot]; exact hdepth)
      ?_ ?_⟩
    · rw [extents_growSlot 1 hget]
      exact List.mem_set hlti _
    · simp only [Ext4Extent.mergesWith, Bool.and_eq_true, beq_iff_eq, decide_eq_true_eq,
        UInt16.lt_iff_toNat_lt] at hm
      have hone := congrArg UInt32.toNat hm.1.1
      have hlen : e.len.toNat < 32768 := hm.2
      unfold Ext4Extent.stop Ext4Extent.first at hstop
      rw [UInt32.toNat_add, UInt16.toNat_toUInt32] at hone
      have hlen' : (e.len + (1 : UInt32).toUInt16).toNat = e.len.toNat + 1 := by
        rw [UInt16.toNat_add]
        show (e.len.toNat + 1) % 2 ^ 16 = _
        omega
      simp only [Ext4Extent.covers, Bool.and_eq_true, decide_eq_true_eq, UInt32.le_iff_toNat_le,
        UInt32.lt_iff_toNat_lt, UInt32.toNat_add, UInt16.toNat_toUInt32, hlen']
      change 1 = _ at hone
      change _ ≤ 1 ∧ 1 < _
      omega
  · rw [if_neg (by intro heq; rw [heq] at hlt; exact Nat.lt_irrefl _ hlt)]
    refine ⟨_, rfl, ?_⟩
    set sorted := (extents d.block ++ [Ext4Extent.new 1 (1 : UInt32).toUInt16 p]).insertionSort
      (fun a b => a.logicalBlock ≤ b.logicalBlock) with hsorted
    have hperm : sorted.Perm (extents d.block ++ [Ext4Extent.new 1 (1 : UInt32).toUInt16 p]) :=
      List.perm_insertionSort _ _
    have hall : extents (writeExtents ({ extentHeader d.block with
        entries := (extentHeader d.block).entries + 1 }.write d.block) 0 sorted) = sorted := by
      apply extents_writeExtents
      rw [extentHeader_write, hperm.length_eq, List.length_append, length_extents,
        List.length_singleton, UInt16.toNat_add]
      show ((extentHeader d.block).entries.toNat + 1) % 2 ^ 16 = _
      omega
    have hmem : Ext4Extent.new 1 (1 : UInt32).toUInt16 p ∈ sorted := hperm.mem_iff.mpr (by simp)
    rw [← hall] at hmem
    refine hfound ?_ hmem (covers_new_one p)
    rw [extentHeader_writeExtents, extentHeader_write]
    exact hdepth

/-- **A directory whose root has room grows exactly when a block is free.** -/
theorem extends_iff_of_room (hs : fs.Sound)
    (hdepth : (extentHeader ino.inodeOnDisk.block).depth = 0)
    (hroom : (extentHeader ino.inodeOnDisk.block).entries <
      (extentHeader ino.inodeOnDisk.block).max)
    (hord : Ext4Extent.Ordered (extents ino.inodeOnDisk.block)) :
    ino.Extends fs ↔ fs.allocOneBlock.isSome := by
  constructor
  · rintro ⟨newBlock, fs₁, -, -, -, halloc, -⟩
    rw [halloc]
    rfl
  · intro hfree
    obtain ⟨⟨newBlock, fs₁⟩, halloc⟩ := Option.isSome_iff_exists.mp hfree
    obtain ⟨d, hins, hfound⟩ := exists_insertExtent hdepth hroom hord newBlock fs₁
    refine ⟨newBlock, fs₁, _, d, fs₁, halloc, hins, ?_⟩
    have hl : logicalBlockOf fs₁ 1 = 1 := by
      rw [logicalBlockOf, (hs.allocOneBlock halloc).sound.blockSize]
      rfl
    unfold writePage
    rw [hl]
    split
    · rfl
    · obtain ⟨e, he⟩ := Option.isSome_iff_exists.mp hfound
      have hlookup : (ino.twoBlocks d).inodeOnDisk.lookupOrCreateExtent fs₁ 1 =
          some (e, (ino.twoBlocks d).inodeOnDisk, fs₁) := by
        unfold lookupOrCreateExtent
        rw [show (ino.twoBlocks d).inodeOnDisk.lookupExtent fs₁ 1 = some e from he]
      simp only [reusable, Option.filter_none, hlookup]
      rfl

end Room

/-! ## Lengths -/

theorem readLoop_length {base rbufLen inodeSize fuel i k : ℕ} {current : Option Ext4Extent}
    (h : readLoop fs base rbufLen inodeSize fuel i k current ino data = some (bs, ino'))
    (hdata : data.length ≤ rbufLen) : bs.length ≤ rbufLen := by
  induction fuel generalizing i k current ino data with
  | zero =>
    cases h
    exact hdata
  | succ fuel ih =>
    unfold readLoop at h
    split at h
    · split at h
      · dsimp only at h
        split at h
        · cases h
        · cases h
          rw [List.length_map, List.length_range']
          exact min_le_left _ _
      · generalize ino.readPage fs i current = r at h
        obtain ⟨p, current', ino₁⟩ := r
        have hlen : ∀ c, c ≤ rbufLen - data.length →
            (data ++ p.slice k c).length ≤ rbufLen := by
          intro c hc
          rw [List.length_append, Page.slice, List.length_map, List.length_range']
          omega
        dsimp only at h
        have hfits := hlen _ (((min_le_left _ (inodeSize - (data.length + base))).trans
          (min_le_left _ (pageSize - k))))
        split at h
        · cases h
          exact hfits
        · exact ih h hfits
    · cases h
      exact hdata

/-- A read fills part of the buffer. -/
theorem readInto_length (h : ino.readInto fs off buf = some (bs, ino')) :
    bs.length = buf.length := by
  obtain ⟨⟨data, ino₁⟩, hread, heq⟩ := Option.map_eq_some_iff.mp h
  cases heq
  have hle : data.length ≤ buf.length := by
    unfold read at hread
    dsimp only at hread
    split at hread
    · cases hread
      exact Nat.zero_le _
    · exact readLoop_length hread (Nat.zero_le _)
  rw [List.length_append, List.length_drop]
  omega


theorem readInto_inodeOnDisk (h : ino.readInto fs off buf = some (bs, ino')) :
    ino'.inodeOnDisk = ino.inodeOnDisk := by
  obtain ⟨⟨data, ino₁⟩, hread, heq⟩ := Option.map_eq_some_iff.mp h
  cases heq
  exact read_inodeOnDisk hread

theorem length_addEntryLoop {content content' : List (BitVec 8)} {fuel : ℕ}
    (h : DirContent.addEntryLoop content name num ty fuel off = some (.ok content')) :
    content'.length = content.length := by
  induction fuel generalizing off with
  | zero => cases h
  | succ fuel ih =>
    unfold DirContent.addEntryLoop at h
    split at h
    · cases h
    · split at h
      · cases h
      · dsimp only at h
        split at h
        · cases h
        · split at h
          · cases h
          · cases h
          · split at h
            · obtain ⟨content₁, hwrite, heq⟩ := Option.map_eq_some_iff.mp h
              cases heq
              exact length_writeToMem hwrite
            · split at h
              · obtain ⟨content₁, hwrite, h⟩ := Option.bind_eq_some_iff.mp h
                obtain ⟨content₂, hwrite', h⟩ := Option.bind_eq_some_iff.mp h
                cases h
                rw [length_writeToMem hwrite', length_writeToMem hwrite]
              · exact ih h

/-! ## A directory that had no room -/

/-- **The size is doubled**, if the directory had a block at least. -/
theorem extendDir_size (h : ino.extendDir fs name num ty buf = some (ino', fs'))
    (hbuf : buf.length = ino.getSize) (hpos : 4096 ≤ ino.getSize) (hlt : ino.getSize < 2 ^ 32) :
    ino'.getSize = 2 * ino.getSize := by
  obtain ⟨_, _, _, d, _, _, ino₂, _, buf₁, ino₃, buf₂, _, -, -, hwrite, hread, hadd, hback⟩ :=
    extendDir_steps h
  -- the buffer has the length it had
  have hlen : buf₂.length = ino.getSize := by
    rw [length_addEntryLoop hadd, readInto_length hread, hbuf]
  have hempty : emptyDentry.length = 8 := rfl
  have hsize : ino₃.getSize = ino.getSize + 4096 := by
    have hkept : ino₃.getSize = ino₂.getSize := (readInto_kept hread).size
    have hwrote : ino₂.getSize = max (usize (ino.getSize + pageSize))
      (usize (ino.getSize + emptyDentry.length)) := (write_spec hwrite).2.size
    rw [hkept, hwrote, hempty]
    unfold usize pageSize
    omega
  have hwrote : ino'.getSize = max ino₃.getSize (usize (ino.getSize + buf₂.length)) :=
    (write_spec hback).2.size
  rw [hwrote, hsize, hlen]
  unfold usize
  omega

/-! ## Writing into one page -/

/-- Bytes for one page are written in one round. -/
theorem writeLoop_onePage {fuel i k : ℕ} {current : Option Ext4Extent} (hbuf : buf ≠ [])
    (hpage : k + buf.length ≤ pageSize) (hfuel : 0 < fuel) :
    writeLoop fuel i k current buf ino fs =
      (ino.writePage fs i current).map fun (p, _, ino', fs') =>
        (ino'.insertPage i (p.copyIn k buf), fs') := by
  obtain ⟨fuel, rfl⟩ : ∃ f, fuel = f + 1 := ⟨fuel - 1, by omega⟩
  have hpos := List.length_pos_iff.mpr hbuf
  rw [writeLoop, if_neg (by omega)]
  cases ino.writePage fs i current with
  | none => rfl
  | some r =>
    obtain ⟨p, current', ino', fs'⟩ := r
    dsimp only [Option.map_some]
    rw [Nat.min_eq_left (by omega), List.take_length, List.drop_length]
    cases fuel <;> rfl

/-- A write into one page of a file that reaches that far. -/
theorem write_onePage (hbuf : buf ≠ []) (hpage : off % pageSize + buf.length ≤ pageSize)
    (hbig : 60 < off + buf.length) (hin : off + buf.length ≤ ino.getSize)
    (hlt : ino.getSize < 2 ^ 64) : ino.write fs off buf =
      (ino.writePage fs (off / pageSize) none).map fun (p, _, ino', fs') =>
        (buf.length, ino'.insertPage (off / pageSize) (p.copyIn (off % pageSize) buf), fs') := by
  have hend : usize (off + buf.length) = off + buf.length := Nat.mod_eq_of_lt (by omega)
  rw [write]
  dsimp only
  rw [hend, if_neg (by omega), if_neg (by omega), writeExtentTree,
    writeLoop_onePage hbuf hpage (List.length_pos_iff.mpr hbuf)]
  cases hp : ino.writePage fs (off / pageSize) none with
  | none => rfl
  | some r =>
    obtain ⟨p, current', ino', fs'⟩ := r
    have hsize : (ino'.insertPage (off / pageSize) (p.copyIn (off % pageSize) buf)).getSize =
        ino.getSize := (writePage_kept hp).1.size
    dsimp only [Option.map_some]
    rw [hend, if_neg (by omega)]

theorem writePage_linksCount {i : ℕ} {current current' : Option Ext4Extent} {p : Page}
    (h : ino.writePage fs i current = some (p, current', ino', fs')) :
    ino'.inodeOnDisk.linksCount = ino.inodeOnDisk.linksCount := by
  unfold writePage at h
  split at h
  · cases h
    rfl
  · dsimp only at h
    split at h
    · cases h
      rfl
    · split at h
      · cases h
      · rename_i hl
        cases h
        rw [lookupOrCreateExtent_frame hl]
        rfl

/-! ## Listing -/

theorem Shows.append (h : ino.Shows off data) (h' : ino.Shows (off + data.length) more) :
    ino.Shows off (data ++ more) where
  size := by
    have := h'.size
    rw [List.length_append]
    omega
  page := fun k hk => by
    rw [List.length_append] at hk
    by_cases hlt : k < data.length
    · obtain ⟨p, hp, hdata⟩ := h.page k hlt
      exact ⟨p, hp, by rw [hdata, List.getElem_append_left hlt]⟩
    · obtain ⟨p, hp, hdata⟩ := h'.page (k - data.length) (by omega)
      have hpos : off + data.length + (k - data.length) = off + k := by omega
      rw [hpos] at hp hdata
      exact ⟨p, hp, by rw [hdata, List.getElem_append_right (by omega)]⟩

/-- **A directory with links is listed whole.** -/
theorem Directory.enumerates (h : ino.Directory fs rs) (hlinks : ino.inodeOnDisk.linksCount ≠ 0) :
    ino.Enumerates fs rs := by
  intro bufLen hlen
  obtain ⟨ino', hreads⟩ := h.readsFrom
  have hread := hreads.read
  rw [contents_nil, List.length_nil] at hread
  refine ⟨ino', ?_⟩
  rw [getdents, if_neg hlinks, if_neg (Nat.not_lt_zero _), hread]
  simp only [Option.bind_eq_bind, Option.bind_some, getdents_whole hlen]
  rfl

/-! ## A directory of one block -/

/-- A read of the first page leaves the other pages alone. -/
theorem read_firstPage {j : ℕ} (hsize : ino.inodeOnDisk.sizeLo = pageSize)
    (h : ino.read fs 0 pageSize = some (bs, ino')) (hj : j ≠ 0) : ino'.pages[j]? = ino.pages[j]? := by
  have hround : ∀ fuel, 0 < fuel → readLoop fs 0 pageSize pageSize fuel 0 0 none ino [] =
      some (bs, ino') → ino'.pages[j]? = ino.pages[j]? := by
    intro fuel hfuel h
    obtain ⟨fuel, rfl⟩ : ∃ f, fuel = f + 1 := ⟨fuel - 1, by omega⟩
    rw [readLoop, if_pos (by decide)] at h
    split at h
    · dsimp only at h
      split at h
      · cases h
      · cases h
        rw [getElem?_insertPage, if_neg hj.symm]
    · generalize hread : ino.readPage fs 0 none = r at h
      obtain ⟨p, current', ino₁⟩ := r
      dsimp only at h
      -- one page is all there is
      rw [if_pos (by simp [Page.slice])] at h
      cases h
      unfold readPage at hread
      split at hread
      · cases hread
        rfl
      · cases hread
        rw [getElem?_insertPage, if_neg hj.symm]
  unfold read at h
  dsimp only at h
  rw [hsize, if_neg (by decide)] at h
  exact hround pageSize (by decide) h

/-- The inode after a block was put behind its one page, with the page of the block. -/
structure Extended (ino ino' : Ext4Inode) (q : Page) : Prop where
  size : ino'.getSize = 8192
  linksCount : ino'.inodeOnDisk.linksCount = ino.inodeOnDisk.linksCount
  page : ino'.pages[1]? = some (q.copyIn 0 emptyDentry)
  pages : ∀ p, ino.pages[0]? = some p → ino'.pages[0]? = some p

/-- A free record is written into the new block. -/
theorem write_emptyDentry {d : Ext4InodeDisk} {newBlock : ℕ} {fs₁ fs₂ : Ext4FileSystem}
    {r : Except String Unit} (h : ino.inodeOnDisk.insertExtent 1 newBlock 1 fs₁ = some (r, d, fs₂)) :
    ((ino.twoBlocks d).write fs₂ 4096 emptyDentry =
      ((ino.twoBlocks d).writePage fs₂ 1 none).map
        fun (q, _, ino', fs') => (8, ino'.insertPage 1 (q.copyIn 0 emptyDentry), fs')) ∧
    ∀ q current ino' fs', (ino.twoBlocks d).writePage fs₂ 1 none =
      some (q, current, ino', fs') →
        ino.Extended (ino'.insertPage 1 (q.copyIn 0 emptyDentry)) q := by
  refine ⟨@write_onePage (ino.twoBlocks d) fs₂ 4096 emptyDentry (by decide) (by decide) (by decide)
    (show 4096 + 8 ≤ 8192 by decide) (show 8192 < 2 ^ 64 by decide),
    fun q current ino' fs' hpage => ?_⟩
  obtain ⟨hkept, hpages⟩ := writePage_kept hpage
  refine ⟨hkept.size, ?_, ?_, fun p hp => ?_⟩
  · change ino'.inodeOnDisk.linksCount = _
    rw [writePage_linksCount hpage]
    change d.linksCount = _
    rw [insertExtent_frame h]
  · rw [getElem?_insertPage, if_pos rfl]
  · rw [getElem?_insertPage, if_neg (by decide)]
    exact hkept.pages 0 p hp

/-- What stands in the new block: a free record. -/
theorem exists_freeRecord (q : Page) : ∃ free : DirRecord,
    (q.copyIn 0 emptyDentry).slice 0 pageSize = free.bytes ∧ free.live = false ∧
      free.entry.recLen = 4096 := by
  let e : Ext4DirEntry := ⟨0, 4096, 0, 0, []⟩
  have hhead : (q.copyIn 0 emptyDentry).slice 0 8 = e.bytes := by
    simp [Page.slice, Page.copyIn, List.range', emptyDentry]
    decide
  have hsplit : (q.copyIn 0 emptyDentry).slice 0 pageSize =
      e.bytes ++ (q.copyIn 0 emptyDentry).slice 8 4088 := by
    rw [← hhead, Page.slice, Page.slice, Page.slice, ← List.map_append]
    exact congrArg _ (List.range'_append_1 (s := 0) (m := 8) (n := 4088)).symm
  refine ⟨DirRecord.written e ((q.copyIn 0 emptyDentry).slice 8 4088) rfl (by decide) ?_, hsplit, rfl, rfl⟩
  rw [← hsplit]
  simp [Page.slice, pageSize, e]

/-- The steps of `add_entry` that need a block. -/
theorem extends_of_extendDir (h : ino.extendDir fs name num ty buf = some (ino', fs'))
    (hsize : ino.getSize = 4096) (hbuf : buf.length = 4096) :
    ino.Extends fs ∧ ino'.inodeOnDisk.linksCount = ino.inodeOnDisk.linksCount := by
  obtain ⟨newBlock, fs₁, r, d, fs₂, n₂, ino₂, fs₃, buf₁, ino₃, buf₂, n₄, halloc, hins, hwrite, hread,
    hadd, hback⟩ := extendDir_steps h
  rw [hsize] at hins hwrite hread hback
  obtain ⟨hfirst, hextended⟩ := write_emptyDentry hins
  change (ino.twoBlocks d).write fs₂ 4096 emptyDentry = _ at hwrite
  rw [hfirst] at hwrite
  obtain ⟨⟨q, current, ino₁, fs₁'⟩, hpage, heq⟩ := Option.map_eq_some_iff.mp hwrite
  cases heq
  refine ⟨⟨newBlock, fs₁, r, d, fs₂, halloc, hins, by rw [hpage]; rfl⟩, ?_⟩
  have hext := hextended _ _ _ _ hpage
  have hlen : buf₂.length = 4096 := by
    rw [length_addEntryLoop hadd, readInto_length hread, hbuf]
  have hne : buf₂ ≠ [] := by
    rintro rfl
    cases hlen
  have hkept := readInto_kept hread
  have hin : ino₃.getSize = 8192 := hkept.size.trans hext.size
  rw [write_onePage hne (by rw [hlen]; decide) (by omega) (by omega) (by omega)] at hback
  obtain ⟨⟨q', current', ino₅, fs₅⟩, hpage', heq⟩ := Option.map_eq_some_iff.mp hback
  cases heq
  change ino₅.inodeOnDisk.linksCount = _
  rw [writePage_linksCount hpage', readInto_inodeOnDisk hread, hext.linksCount]

/-- A free record of a block's length takes any entry. -/
theorem addEntry_freeRecord {free : DirRecord} (hname : (nameBytes name).length ≤ 255)
    (hdead : free.live = false) (hrec : free.entry.recLen = 4096) :
    ∃ new : DirRecord, DirContent.addEntry (contents [free]) name num ty =
        some (.ok (contents [new])) ∧
      new.entry = DirContent.newEntry name num 4096 ty ∧ new.bytes.length = 4096 := by
  have htakes : free.takes name = true := by
    rw [DirRecord.takes, hdead, hrec]
    refine decide_eq_true (UInt16.le_iff_toNat_le.mpr ?_)
    rw [toNat_neededLen hname, show (4096 : UInt16).toNat = 4096 from rfl]
    omega
  rcases @addEntry_contents [free] name num ty hname with ⟨hnone, -⟩ |
    ⟨before, r, after, news, hsplit, -, -, hplaced, hadd⟩
  · have hfull := hnone free (by simp)
    rw [htakes] at hfull
    cases hfull
  · obtain ⟨rfl, rfl, rfl⟩ : before = [] ∧ r = free ∧ after = [] := by
      cases before with
      | nil => simpa [eq_comm] using hsplit
      | cons b before => simp at hsplit
    have hlen := hplaced.length
    cases hplaced with
    | behind old new live =>
      rw [hdead] at live
      cases live
    | free new dead entry =>
      rw [contents_cons, contents_nil, List.append_nil, ← r.covers, hrec] at hlen
      exact ⟨new, hadd, by rw [entry, hrec], hlen⟩

/-- **The new block takes the entry.** -/
theorem extendDir_onePage (hext : ino.Extends fs) (hsize : ino.getSize = 4096)
    (hbuf : buf.length = 4096) (hname : (nameBytes name).length ≤ 255) :
    ∃ ino' fs', ∃ new : DirRecord, ino.extendDir fs name num ty buf = some (ino', fs') ∧
      ino'.getSize = 8192 ∧
      (∀ p, ino.pages[0]? = some p → ino'.pages[0]? = some p) ∧
      ino'.Shows 4096 new.bytes ∧ new.bytes.length = 4096 ∧
      new.entry = DirContent.newEntry name num 4096 ty := by
  obtain ⟨newBlock, fs₁, r, d, fs₂, halloc, hins, hsome⟩ := hext
  obtain ⟨⟨q, current, ino₁, fs₃⟩, hpage⟩ := Option.isSome_iff_exists.mp hsome
  obtain ⟨hfirst, hextended⟩ := write_emptyDentry hins
  have hext := hextended _ _ _ _ hpage
  rw [hpage, Option.map_some] at hfirst
  dsimp only at hfirst
  obtain ⟨ino₂, hino₂⟩ : ∃ i, i = ino₁.insertPage 1 (q.copyIn 0 emptyDentry) := ⟨_, rfl⟩
  rw [← hino₂] at hfirst hext
  have hlo : ino₂.inodeOnDisk.sizeLo = 8192 := by
    have h : ino₂.inodeOnDisk.size = 8192 := hext.size
    rw [Ext4InodeDisk.sizeLo, h, Nat.mod_eq_of_lt (by decide)]
  -- the record that is read
  obtain ⟨free, hfree, hdead, hrec⟩ := exists_freeRecord q
  have hlen : free.bytes.length = 4096 := by
    rw [← free.covers, hrec]
    rfl
  have hshows : ino₂.Shows 4096 free.bytes := by
    have hnil : ino₂.Shows 4096 [] := ⟨by rw [hlo]; decide, fun k hk => absurd hk (by simp)⟩
    have h := @Shows.append_slice ino₂ 4096 pageSize [] (q.copyIn 0 emptyDentry) hnil hext.page
      (by decide) (by rw [hlo]; decide)
    rw [← hfree]
    exact h
  have hread : ino₂.readInto fs₃ 4096 buf = some (contents [free], ino₂) := by
    have h := @read_of_shows ino₂ fs₃ 4096 free.bytes hshows
    rw [hlen] at h
    rw [readInto, hbuf, h, Option.map_some]
    dsimp only
    rw [List.drop_eq_nil_of_le (by omega), contents_cons, contents_nil]
  obtain ⟨new, hadd, hentry, hnew⟩ := @addEntry_freeRecord name num ty free hname hdead hrec
  -- and written back into the page
  have hne : new.bytes ≠ [] := by
    intro h
    rw [h] at hnew
    cases hnew
  have hsecond := @write_onePage ino₂ fs₃ 4096 new.bytes hne (by rw [hnew]; decide) (by omega)
    (by rw [hnew, hext.size]) (by rw [hext.size]; decide)
  have hcached : ino₂.writePage fs₃ (4096 / pageSize) none =
      some (q.copyIn 0 emptyDentry, none, ino₂, fs₃) := by
    rw [show 4096 / pageSize = 1 from rfl, writePage, hext.page]
  rw [hcached, Option.map_some] at hsecond
  dsimp only at hsecond
  obtain ⟨-, hwrote⟩ := write_spec hsecond
  obtain ⟨ino₃, hino₃⟩ : ∃ i, i = ino₂.insertPage (4096 / pageSize)
    ((q.copyIn 0 emptyDentry).copyIn (4096 % pageSize) new.bytes) := ⟨_, rfl⟩
  rw [← hino₃] at hsecond hwrote
  refine ⟨ino₃, fs₃, new, ?_, ?_, fun p hp => ?_, hwrote.shows ?_, hnew, hentry⟩
  · rw [extendDir, hsize, halloc]
    simp only [Option.bind_eq_bind, Option.bind_some]
    rw [show UInt32.ofNat (4096 / pageSize) = 1 from rfl, hins, Option.bind_some]
    change ((ino.twoBlocks d).write fs₂ 4096 emptyDentry).bind _ = _
    rw [hfirst]
    simp only [Option.bind_some]
    rw [hread]
    simp only [Option.bind_some]
    rw [hadd]
    simp only [Option.bind_some, contents_cons, contents_nil, List.append_nil]
    rw [hsecond]
    rfl
  · rw [hino₃]
    exact hext.size
  · rw [hino₃, show 4096 / pageSize = 1 from rfl, getElem?_insertPage, if_neg (by decide)]
    exact hext.pages p hp
  · rw [hnew, sizeAfter, hext.size]
    decide

/-! ## Growing as it should -/

variable {blocks : List (List DirRecord)} {seed generation : UInt32} {e : String}

/-- What `add_entry` does when there is no room in what it read. -/
theorem addEntry_of_error (hread : ino.readInto fs 0 (List.replicate ino.getSize 0) = some (buf, ino₁))
    (hfull : DirContent.addEntry buf name num ty = some (.error e)) :
    ino.addEntry fs seed generation name num ty = ino₁.extendDir fs name num ty buf := by
  simp only [addEntry, hread, Option.bind_eq_bind, Option.bind_some, hfull]

/-- A directory without room is read and extended. -/
theorem addEntry_of_full (hdir : ino.Directory fs rs)
    (hfull : DirContent.addEntry (contents rs) name num ty = some (.error e)) :
    ∃ ino₁, ino.ReadsFrom fs [] rs ino₁ ∧ ino.addEntry fs seed generation name num ty =
      ino₁.extendDir fs name num ty (contents rs) := by
  obtain ⟨ino₁, hreads⟩ := hdir.readsFrom
  have hread := hreads.read
  rw [contents_nil, List.length_nil, Nat.sub_zero] at hread
  exact ⟨ino₁, hreads, addEntry_of_error hread hfull⟩

theorem writePage_isSome_congr {i : ℕ} (hpage : ino'.pages[i]? = ino.pages[i]?)
    (hdisk : ino'.inodeOnDisk = ino.inodeOnDisk) :
    (ino'.writePage fs i none).isSome = (ino.writePage fs i none).isSome := by
  unfold writePage
  rw [hpage, hdisk]
  cases ino.pages[i]? with
  | some p => rfl
  | none =>
    simp only [reusable, Option.filter_none]
    cases ino.inodeOnDisk.lookupOrCreateExtent fs (logicalBlockOf fs i) <;> rfl

/-- Reading the directory does not say whether it can grow. -/
theorem extends_congr (hpage : ino'.pages[1]? = ino.pages[1]?)
    (hdisk : ino'.inodeOnDisk = ino.inodeOnDisk) : ino'.Extends fs ↔ ino.Extends fs := by
  have hsome : ∀ d fs₂, ((ino'.twoBlocks d).writePage fs₂ 1 none).isSome =
      ((ino.twoBlocks d).writePage fs₂ 1 none).isSome :=
    fun d fs₂ => writePage_isSome_congr hpage rfl
  unfold Extends
  simp only [hdisk, hsome]

/-- What an entry in use says: it is for an inode, and its name is not too long. -/
theorem mem_liveEntries {p : UInt32 × UInt8 × List (BitVec 8)} (h : p ∈ liveEntries rs) :
    p.1 ≠ 0 ∧ p.2.2.length ≤ 255 := by
  obtain ⟨r, hr, rfl⟩ := List.mem_map.mp h
  have hlive := (List.mem_filter.mp hr).2
  have hlt := r.entry.nameLen.toNat_lt
  refine ⟨by simpa [DirRecord.live] using hlive, ?_⟩
  rw [r.length_name]
  omega

/-- The size of a directory that was read is below `2 ^ 32`. -/
theorem ReadsFrom.size_lt (h : ino.ReadsFrom fs [] rs ino') (hne : contents rs ≠ []) :
    ino.getSize < 2 ^ 32 := by
  have hle := (h.shows hne).size
  have hsize := h.size
  rw [List.nil_append] at hle hsize
  rw [Ext4InodeDisk.sizeLo, h.inodeOnDisk, hsize] at hle
  change 0 + ino.getSize ≤ ino.getSize % 2 ^ 32 at hle
  omega

/-- Reading a directory of one page leaves the next page alone. -/
theorem ReadsFrom.extends_iff (h : ino.ReadsFrom fs [] rs ino') (hsize : ino.getSize = pageSize) :
    ino'.Extends fs ↔ ino.Extends fs := by
  have hinto := h.read
  rw [contents_nil, List.length_nil, Nat.sub_zero, hsize] at hinto
  obtain ⟨⟨bs, ino₁⟩, hread, heq⟩ := Option.map_eq_some_iff.mp hinto
  obtain rfl : ino₁ = ino' := congrArg Prod.snd heq
  rw [List.length_replicate] at hread
  refine extends_congr (read_firstPage ?_ hread (by decide)) h.inodeOnDisk
  change ino.getSize % 2 ^ 32 = pageSize
  rw [hsize]
  decide

/-- A directory that is shown as a whole can be read. -/
theorem Shows.directory (h : ino.Shows 0 (contents rs)) (hsize : (contents rs).length = ino.getSize)
    (fs : Ext4FileSystem) : ino.Directory fs rs := by
  have hread := @read_of_shows ino fs 0 _ h
  rw [hsize] at hread
  exact ⟨hsize, ino, hread⟩

/-- What is shown of the first page is shown by every inode that has the page. -/
theorem Shows.of_firstPage (h : ino.Shows 0 data) (hlen : data.length ≤ pageSize)
    (hsize : data.length ≤ ino'.inodeOnDisk.sizeLo)
    (hpage : ∀ p, ino.pages[0]? = some p → ino'.pages[0]? = some p) : ino'.Shows 0 data where
  size := by omega
  page := fun k hk => by
    obtain ⟨p, hp, hdata⟩ := h.page k hk
    have hdiv : (0 + k) / pageSize = 0 := Nat.div_eq_of_lt (by omega)
    rw [hdiv] at hp
    exact ⟨p, by rw [hdiv]; exact hpage p hp, hdata⟩

/-- The new block has one entry in use. -/
theorem liveEntries_append_new {new : DirRecord} {recLen : UInt16} (hnum : num ≠ 0)
    (hentry : new.entry = DirContent.newEntry name num recLen ty) (rs : List DirRecord) :
    liveEntries (rs ++ [new]) = liveEntries rs ++ [(num, ty, nameBytes name)] := by
  have hlive : new.live = true := by
    rw [DirRecord.live, hentry]
    exact decide_eq_true hnum
  have hshown : liveEntries [new] = [(num, ty, nameBytes name)] := by
    rw [liveEntries, List.filter_cons_of_pos hlive, List.filter_nil, List.map_cons, hentry]
    rfl
  rw [← hshown]
  simp [liveEntries]

/-- **A directory of one block grows as it should.** -/
theorem grows_onePage (hreads : ino.ReadsFrom fs [] rs ino₁) (hlen : (contents rs).length = 4096)
    (hadd : ino.addEntry fs seed generation name num ty = ino₁.extendDir fs name num ty (contents rs))
    (hext : ino₁.Extends fs) (hlinks : ino.inodeOnDisk.linksCount ≠ 0) (hnum : num ≠ 0)
    (hname : (nameBytes name).length ≤ 255) : ino.Grows fs seed generation rs name num ty := by
  have hsize : ino.getSize = 4096 := by
    have h := hreads.size
    rw [List.nil_append, hlen] at h
    exact h.symm
  have hsize₁ : ino₁.getSize = 4096 := (congrArg Ext4InodeDisk.size hreads.inodeOnDisk).trans hsize
  obtain ⟨ino', fs', new, hrun, hgrown, hpages, hnew, hnewLen, hentry⟩ :=
    @extendDir_onePage ino₁ fs (contents rs) name num ty hext hsize₁ hlen hname
  have hlinks' : ino'.inodeOnDisk.linksCount ≠ 0 := by
    rwa [(extends_of_extendDir hrun hsize₁ hlen).2, hreads.inodeOnDisk]
  have hlo : ino'.inodeOnDisk.sizeLo = 8192 := by
    have h : ino'.inodeOnDisk.size = 8192 := hgrown
    rw [Ext4InodeDisk.sizeLo, h, Nat.mod_eq_of_lt (by decide)]
  -- the old records stand in the first page, the new one in the second
  have hold : ino'.Shows 0 (contents rs) := by
    refine Shows.of_firstPage (hreads.shows fun h => ?_) hlen.le (by omega) hpages
    rw [List.nil_append] at h
    rw [h] at hlen
    cases hlen
  have hall : ino'.Shows 0 (contents (rs ++ [new])) := by
    rw [contents_append, contents_cons, contents_nil, List.append_nil]
    refine hold.append ?_
    rw [hlen]
    exact hnew
  have htotal : (contents (rs ++ [new])).length = ino'.getSize := by
    rw [contents_append, List.length_append, contents_cons, contents_nil, List.append_nil, hgrown]
    omega
  refine ⟨ino', fs', rs ++ [new], by rw [hadd, hrun], by omega,
    (hall.directory htotal fs').enumerates hlinks', ?_⟩
  rw [liveEntries_append_new hnum hentry]
  exact List.perm_append_singleton _ _

/-- **A directory without room grows as it should** exactly when it has one block, a block can be
had for it, it has links, and the entry is one. -/
theorem addEntry_grows_iff (hdir : ino.Directory fs blocks.flatten) (hne : blocks ≠ [])
    (hblocks : ∀ b ∈ blocks, (contents b).length = 4096)
    (hfull : DirContent.addEntry (contents blocks.flatten) name num ty = some (.error e)) :
    ino.Grows fs seed generation blocks.flatten name num ty ↔
      blocks.length = 1 ∧ ino.Extends fs ∧ ino.inodeOnDisk.linksCount ≠ 0 ∧
        num ≠ 0 ∧ (nameBytes name).length ≤ 255 := by
  obtain ⟨ino₁, hreads, hadd⟩ := @addEntry_of_full ino fs blocks.flatten name num ty seed generation
    e hdir hfull
  have hlen := length_contents_flatten hblocks
  have hpos := List.length_pos_iff.mpr hne
  have hsize := hdir.size
  have hsize₁ : ino₁.getSize = ino.getSize := congrArg Ext4InodeDisk.size hreads.inodeOnDisk
  have hlt : ino.getSize < 2 ^ 32 := hreads.size_lt fun h => by
    rw [h, List.length_nil] at hlen
    omega
  have hext : blocks.length = 1 → (ino₁.Extends fs ↔ ino.Extends fs) := fun hone =>
    hreads.extends_iff (by rw [← hsize, hlen, hone]; rfl)
  constructor
  · rintro ⟨ino', fs', rs', hrun, hgrown, henum, hperm⟩
    rw [hadd] at hrun
    -- twice the size is one block more for one block only
    have hdouble := extendDir_size hrun (by omega) (by omega) (by omega)
    have hone : blocks.length = 1 := by omega
    obtain ⟨hextends, hlinks⟩ := extends_of_extendDir hrun (by omega) (by omega)
    obtain ⟨hnum, hname⟩ := mem_liveEntries (hperm.mem_iff.mpr (List.mem_cons_self ..))
    refine ⟨hone, (hext hone).mp hextends, fun hzero => ?_, hnum, hname⟩
    obtain ⟨ino'', hget⟩ := henum _ le_rfl
    rw [getdents, if_pos (by rw [hlinks, hreads.inodeOnDisk, hzero])] at hget
    cases hget
  · rintro ⟨hone, hextends, hlinks, hnum, hname⟩
    exact grows_onePage hreads (by omega) hadd ((hext hone).mpr hextends) hlinks hnum hname

/-! ## Full directories -/

section FullBlocks

set_option maxRecDepth 20000

/-- A record without room, for a name of 255 letters that starts with the `i`-th capital. -/
def longRecord (i : ℕ) : DirRecord :=
  .written ⟨UInt32.ofNat (12 + i), 264, 255, 1, BitVec.ofNat 8 (65 + i) :: List.replicate 254 97⟩ [0]
    (by simp) (show (264 : UInt16).toNat % 4 = 0 by decide)
    (by rw [List.length_append, length_entryBytes (by simp)]; rfl)

/-- The same for a name of 128 letters. -/
def shortRecord (i : ℕ) : DirRecord :=
  .written ⟨UInt32.ofNat (12 + i), 136, 128, 1, BitVec.ofNat 8 (65 + i) :: List.replicate 127 97⟩ []
    (by simp) (show (136 : UInt16).toNat % 4 = 0 by decide)
    (by rw [List.length_append, length_entryBytes (by simp)]; rfl)

/-- A block without room. -/
def fullBlock (k : ℕ) : List DirRecord :=
  (List.range 15).map (fun i => longRecord (16 * k + i)) ++ [shortRecord (16 * k + 15)]

/-- `n` of them. -/
def fullBlocks (n : ℕ) : List (List DirRecord) := (List.range n).map fullBlock

/-- A directory of these blocks, with its pages in the cache.  Its blocks start at block 3. -/
def fullDirectory (n : ℕ) : Ext4Inode where
  inodeNum := 2
  inodeOnDisk := {
    size := 4096 * n
    linksCount := 2
    extentsFl := true
    inlineDataFl := false
    block := (Ext4Extent.new 0 (UInt16.ofNat n) 3).write
      ({ Ext4ExtentHeader.newRoot with entries := 1 }.write fun _ => 0) 12 }
  pages := (List.range n).foldl
    (fun ps k => ps.insert k ⟨toBuffer (contents (fullBlock k)), false⟩) ∅
  seals := 1

/-- A file system of one group with this directory in it. -/
def fullDirectoryFs (n : ℕ) : Ext4FileSystem where
  blockSize := 4096
  blocksPerGroup := 32768
  blockGroups := [⟨1, UInt32.ofNat (32765 - n)⟩]
  freeBlocksCount := UInt64.ofNat (32765 - n)
  device := fun i => if i = 4096 then BitVec.ofNat 8 (2 ^ (3 + n) - 1) else 0
  inodeTable := fun _ => (fullDirectory n).inodeOnDisk

variable {k j m : ℕ}

theorem length_fullBlock (k : ℕ) : (contents (fullBlock k)).length = 4096 := by
  have hlong : ∀ i, (longRecord i).bytes.length = 264 := fun i => (longRecord i).covers.symm
  have hshort : (shortRecord (16 * k + 15)).bytes.length = 136 := (shortRecord _).covers.symm
  simp [contents, fullBlock, List.range_succ, hlong, hshort]

theorem getElem?_fullDirectory : (fullDirectory n).pages[j]? =
    if j < n then some ⟨toBuffer (contents (fullBlock j)), false⟩ else none := by
  change ((List.range n).foldl
    (fun ps k => ps.insert k (⟨toBuffer (contents (fullBlock k)), false⟩ : Page))
    (∅ : Std.TreeMap ℕ Page))[j]? = _
  induction n with
  | zero => simp
  | succ n ih =>
    rw [List.range_succ, List.foldl_append, List.foldl_cons, List.foldl_nil,
      Std.TreeMap.getElem?_insert, ih]
    by_cases h : n = j
    · simp [h]
    · rw [if_neg (by simpa using h)]
      by_cases hj : j < n
      · rw [if_pos hj, if_pos (by omega)]
      · rw [if_neg hj, if_neg (by omega)]

theorem shows_fullBlock (hn : 4096 * n < 2 ^ 32) (hj : j < n) :
    (fullDirectory n).Shows (4096 * j) (contents (fullBlock j)) where
  size := by
    rw [length_fullBlock]
    change 4096 * j + 4096 ≤ 4096 * n % 2 ^ 32
    omega
  page := fun k hk => by
    rw [length_fullBlock] at hk
    have hdiv : (4096 * j + k) / pageSize = j := by
      unfold pageSize
      omega
    have hmod : (4096 * j + k) % pageSize = k := by
      unfold pageSize
      omega
    refine ⟨⟨toBuffer (contents (fullBlock j)), false⟩, ?_, ?_⟩
    · rw [hdiv, getElem?_fullDirectory, if_pos hj]
    · rw [hmod]
      exact List.getD_eq_getElem _ _ _

theorem shows_fullBlocks (hn : 4096 * n < 2 ^ 32) (hm : m ≤ n) :
    (fullDirectory n).Shows 0 (contents (fullBlocks m).flatten) := by
  induction m with
  | zero => exact ⟨by simp [fullBlocks], fun k hk => absurd hk (by simp [fullBlocks])⟩
  | succ m ih =>
    have hsplit : (fullBlocks (m + 1)).flatten = (fullBlocks m).flatten ++ fullBlock m := by
      simp [fullBlocks, List.range_succ]
    have hlen : (contents (fullBlocks m).flatten).length = 4096 * m := by
      rw [length_contents_flatten]
      · simp [fullBlocks]
      · intro b hb
        obtain ⟨i, -, rfl⟩ := List.mem_map.mp hb
        exact length_fullBlock i
    rw [hsplit, contents_append]
    refine (ih (by omega)).append ?_
    rw [hlen, Nat.zero_add]
    exact shows_fullBlock hn (by omega)

theorem forall_fullBlocks (n : ℕ) : ∀ b ∈ fullBlocks n, (contents b).length = 4096 := by
  intro b hb
  obtain ⟨i, -, rfl⟩ := List.mem_map.mp hb
  exact length_fullBlock i

/-- The directory is in order. -/
theorem directory_fullDirectory (hn : 4096 * n < 2 ^ 32) (fs : Ext4FileSystem) :
    (fullDirectory n).Directory fs (fullBlocks n).flatten := by
  refine (shows_fullBlocks hn le_rfl).directory ?_ fs
  rw [length_contents_flatten (forall_fullBlocks n)]
  simp [fullBlocks, fullDirectory, getSize]

theorem takes_longRecord {i : ℕ} (hi : i < 2 ^ 31) : (longRecord i).takes ['z'] = false ∧
    (shortRecord i).takes ['z'] = false := by
  have hnum : UInt32.ofNat (12 + i) ≠ 0 := by
    intro h
    have h := congrArg UInt32.toNat h
    rw [UInt32.toNat_ofNat', Nat.mod_eq_of_lt (by omega)] at h
    change 12 + i = 0 at h
    omega
  have hlong : (longRecord i).live = true := decide_eq_true hnum
  have hshort : (shortRecord i).live = true := decide_eq_true hnum
  rw [DirRecord.takes, if_pos hlong, DirRecord.takes, if_pos hshort]
  constructor
  · change decide (DirContent.neededLen (255 : UInt8).toNat +
      DirContent.neededLen (nameBytes ['z']).length ≤ 264) = false
    decide
  · change decide (DirContent.neededLen (128 : UInt8).toNat +
      DirContent.neededLen (nameBytes ['z']).length ≤ 136) = false
    decide

/-- None of its records takes a name of one letter. -/
theorem addEntry_fullBlocks (hn : 4096 * n < 2 ^ 32) (num : UInt32) (ty : UInt8) :
    DirContent.addEntry (contents (fullBlocks n).flatten) ['z'] num ty =
      some (.error "No space left in directory block") := by
  have hfull : ∀ r ∈ (fullBlocks n).flatten, r.takes ['z'] = false := by
    intro r hr
    obtain ⟨b, hb, hr⟩ := List.mem_flatten.mp hr
    obtain ⟨k, hk, rfl⟩ := List.mem_map.mp hb
    have hk := List.mem_range.mp hk
    rcases List.mem_append.mp hr with hr | hr
    · obtain ⟨i, hi, rfl⟩ := List.mem_map.mp hr
      have hi := List.mem_range.mp hi
      exact (takes_longRecord (by omega)).1
    · rw [List.mem_singleton.mp hr]
      exact (takes_longRecord (by omega)).2
  rcases @addEntry_contents (fullBlocks n).flatten ['z'] num ty (by decide) with ⟨-, h⟩ |
    ⟨before, r, after, news, hsplit, -, htakes, -⟩
  · exact h
  · rw [hfull r (by rw [hsplit]; simp)] at htakes
    cases htakes

/-- A full directory of one block grows. -/
theorem addEntry_grows_iff_oneBlock : (fullDirectory 1).Extends (fullDirectoryFs 1) ∧
    (fullDirectory 1).Grows (fullDirectoryFs 1) 0 0 (fullBlocks 1).flatten ['z'] 99 1 := by
  have hext : (fullDirectory 1).Extends (fullDirectoryFs 1) := by
    have hsome : ((fullDirectoryFs 1).allocOneBlock.bind fun a =>
        ((fullDirectory 1).inodeOnDisk.insertExtent 1 a.1 1 a.2).bind fun b =>
          ((fullDirectory 1).twoBlocks b.2.1).writePage b.2.2 1 none).isSome = true := by
      decide +kernel
    obtain ⟨v, hv⟩ := Option.isSome_iff_exists.mp hsome
    obtain ⟨⟨newBlock, fs₁⟩, halloc, hv⟩ := Option.bind_eq_some_iff.mp hv
    obtain ⟨⟨r, d, fs₂⟩, hins, hv⟩ := Option.bind_eq_some_iff.mp hv
    exact ⟨newBlock, fs₁, r, d, fs₂, halloc, hins, by rw [hv]; rfl⟩
  refine ⟨hext, (addEntry_grows_iff (directory_fullDirectory (by decide) _) (by decide)
    (forall_fullBlocks 1) (addEntry_fullBlocks (by decide) 99 1)).mpr ⟨rfl, hext, ?_, ?_, ?_⟩⟩
  · decide
  · decide
  · decide

theorem readInto_fullDirectory (hn : 4096 * n < 2 ^ 32) (fs : Ext4FileSystem) :
    (fullDirectory n).readInto fs 0 (List.replicate (fullDirectory n).getSize 0) =
      some (contents (fullBlocks n).flatten, fullDirectory n) := by
  have hread := @read_of_shows _ fs _ _ (shows_fullBlocks hn le_rfl)
  rw [readInto, List.length_replicate, ← (directory_fullDirectory hn fs).size, hread, Option.map_some]
  simp

/-- The run behind the first read. -/
theorem extendDir_twoBlocks : ((fullDirectory 2).extendDir (fullDirectoryFs 2) ['z'] 99 1
    (contents (fullBlocks 2).flatten)).map (fun r => r.1.getSize) = some 16384 := by
  decide +kernel

/-- **A full directory of two blocks gets two more**, with a second copy of what the second one
holds. -/
theorem twoBlocks_doubled :
    (fullDirectory 2).Directory (fullDirectoryFs 2) (fullBlocks 2).flatten ∧
      DirContent.addEntry (contents (fullBlocks 2).flatten) ['z'] 99 1 =
        some (.error "No space left in directory block") ∧
      ((fullDirectory 2).addEntry (fullDirectoryFs 2) 0 0 ['z'] 99 1).map (fun r => r.1.getSize) =
        some 16384 ∧
      ¬ (fullDirectory 2).Grows (fullDirectoryFs 2) 0 0 (fullBlocks 2).flatten ['z'] 99 1 := by
  have hfull := @addEntry_fullBlocks 2 (by decide) 99 1
  have hrun : ((fullDirectory 2).addEntry (fullDirectoryFs 2) 0 0 ['z'] 99 1).map
      (fun r => r.1.getSize) = some 16384 := by
    rw [addEntry_of_error (readInto_fullDirectory (by decide) _) hfull]
    exact extendDir_twoBlocks
  refine ⟨directory_fullDirectory (by decide) _, hfull, hrun, ?_⟩
  rintro ⟨ino', fs', rs', hadd, hsize, -, -⟩
  rw [hadd, Option.map_some, hsize] at hrun
  cases hrun

end FullBlocks

end Ext4Inode

end QuackOS.Ext4
