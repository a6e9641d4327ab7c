import QuackOS.Ext4.DirRecords
import QuackOS.Ext4.Pages

/-!
# Directories in the page cache

Every operation on a directory reads all of it first, and from then on its pages are in the
cache.  What a later call sees is what the first one read, as long as nothing is written.

* `Ext4Inode.shows_of_read` — what was read is shown;
* `Ext4Inode.Directory` — reading the directory as a whole gives these records;
* `Ext4Inode.getdents_of_directory` — what `getdents` returns at the start of a record.
-/

namespace QuackOS.Ext4

open DirContent

namespace Ext4Inode

variable {ino ino' : Ext4Inode} {fs : Ext4FileSystem} {off n : ℕ} {data bs : List (BitVec 8)}

/-! ## What was read is shown -/

/-- The page a round of the loop of `read` copies from is in the cache afterwards. -/
theorem readPage_page {i : ℕ} {current current' : Option Ext4Extent} {p : Page}
    (h : ino.readPage fs i current = (p, current', ino')) : ino'.pages[i]? = some p := by
  unfold readPage at h
  split at h
  · rename_i hpage
    cases h
    exact hpage
  · cases h
    rw [getElem?_insertPage, if_pos rfl]

/-- Bytes copied from a page go on what was shown before. -/
theorem Shows.append_slice {p : Page} (hs : ino.Shows off data)
    (hp : ino.pages[(off + data.length) / pageSize]? = some p)
    (hpage : (off + data.length) % pageSize + n ≤ pageSize)
    (hsize : off + data.length + n ≤ ino.inodeOnDisk.sizeLo) :
    ino.Shows off (data ++ p.slice ((off + data.length) % pageSize) n) where
  size := by
    rw [List.length_append, Page.slice, List.length_map, List.length_range']
    omega
  page := fun k hk => by
    rw [List.length_append, Page.slice, List.length_map, List.length_range'] at hk
    by_cases hlt : k < data.length
    · obtain ⟨q, hq, hdata⟩ := hs.page k hlt
      exact ⟨q, hq, by rw [hdata, List.getElem_append_left hlt]⟩
    · -- the byte comes from this page
      have hdiv : (off + k) / pageSize = (off + data.length) / pageSize := by
        unfold pageSize at hpage ⊢
        omega
      have hmod : (off + k) % pageSize = (off + data.length) % pageSize + (k - data.length) := by
        unfold pageSize at hpage ⊢
        omega
      refine ⟨p, by rw [hdiv, hp], ?_⟩
      rw [List.getElem_append_right (by omega), hmod]
      simp [Page.slice]

/-- The first page of an inline file shows what is copied from `i_block`. -/
theorem shows_inline (hpage : off / pageSize = 0) (hsize : off + n ≤ ino.inodeOnDisk.sizeLo)
    (hblock : off + n ≤ 60) :
    (ino.insertPage (off / pageSize) (newInlinePageCache ino.inodeOnDisk.block)).Shows off
      ((List.range' off n).map ino.inodeOnDisk.block) where
  size := by
    rw [List.length_map, List.length_range']
    exact hsize
  page := fun k hk => by
    rw [List.length_map, List.length_range'] at hk
    have hdiv : (off + k) / pageSize = 0 := by
      unfold pageSize
      omega
    have hmod : (off + k) % pageSize = off + k := by
      unfold pageSize
      omega
    refine ⟨newInlinePageCache ino.inodeOnDisk.block, ?_, ?_⟩
    · rw [hpage, hdiv, getElem?_insertPage, if_pos rfl]
    · rw [hmod]
      simp only [newInlinePageCache, List.getElem_map, List.getElem_range', one_mul]
      rw [if_pos (by omega)]

/-- A page is read and its bytes are copied. -/
theorem Shows.readPage {current current' : Option Ext4Extent} {p : Page} (hs : ino.Shows off data)
    (h : ino.readPage fs ((off + data.length) / pageSize) current = (p, current', ino'))
    (hpage : (off + data.length) % pageSize + n ≤ pageSize)
    (hsize : off + data.length + n ≤ ino.inodeOnDisk.sizeLo) :
    ino'.inodeOnDisk.sizeLo = ino.inodeOnDisk.sizeLo ∧
      ino'.Shows off (data ++ p.slice ((off + data.length) % pageSize) n) := by
  have hkept := readPage_kept h
  have hsizeLo : ino'.inodeOnDisk.sizeLo = ino.inodeOnDisk.sizeLo := by
    unfold Ext4InodeDisk.sizeLo
    rw [hkept.size]
  refine ⟨hsizeLo, (hkept.shows hs).append_slice (readPage_page h) hpage ?_⟩
  rw [hsizeLo]
  exact hsize

/-- A full buffer ends the loop. -/
theorem readLoop_full {base rbufLen inodeSize fuel pageIndex pageOffset : ℕ}
    {current : Option Ext4Extent} (hfull : rbufLen ≤ data.length) :
    readLoop fs base rbufLen inodeSize fuel pageIndex pageOffset current ino data =
      some (data, ino) := by
  cases fuel with
  | zero => rfl
  | succ fuel =>
    unfold readLoop
    rw [if_neg (by omega)]

theorem readLoop_shows {base rbufLen inodeSize fuel : ℕ} {current : Option Ext4Extent}
    (hs : ino.Shows base data) (hsize : ino.inodeOnDisk.sizeLo = inodeSize)
    (hlt : base + data.length < inodeSize)
    (h : readLoop fs base rbufLen inodeSize fuel ((base + data.length) / pageSize)
      ((base + data.length) % pageSize) current ino data = some (bs, ino')) :
    ino'.Shows base bs := by
  induction fuel generalizing current ino data with
  | zero =>
    cases h
    exact hs
  | succ fuel ih =>
    unfold readLoop at h
    split at h
    · split at h
      · -- the first page of an inline file
        rename_i hinline
        dsimp only at h
        split at h
        · cases h
        · cases h
          have hdiv : base / pageSize = (base + data.length) / pageSize := by
            have := hinline.2.1
            unfold pageSize at this ⊢
            omega
          rw [← hdiv]
          exact shows_inline (hdiv.trans hinline.2.1) (by omega) (by omega)
      · generalize hread : ino.readPage fs ((base + data.length) / pageSize) current = r at h
        obtain ⟨p, current', ino₁⟩ := r
        dsimp only at h
        have hmod := Nat.mod_lt (base + data.length) (show 0 < pageSize by decide)
        generalize hcopy : min (min (rbufLen - data.length)
          (pageSize - (base + data.length) % pageSize)) (inodeSize - (data.length + base)) = k at h
        obtain ⟨hsize₁, hs₂⟩ := hs.readPage (n := k) hread (by omega) (by omega)
        rw [hsize] at hsize₁
        have hlen : (data ++ p.slice ((base + data.length) % pageSize) k).length =
            data.length + k := by
          rw [List.length_append, Page.slice, List.length_map, List.length_range']
        split at h
        · cases h
          exact hs₂
        · rename_i hmore
          rw [hlen] at hmore
          by_cases hend : (base + data.length) % pageSize + k = pageSize
          · obtain ⟨hdiv, hzero⟩ := next_page hend
            refine @ih ino₁ (data ++ p.slice ((base + data.length) % pageSize) k) current' hs₂
              hsize₁ (by rw [hlen]; omega) ?_
            rw [hlen, ← Nat.add_assoc, hdiv, hzero]
            exact h
          · rw [readLoop_full (by rw [hlen]; omega)] at h
            cases h
            exact hs₂
    · cases h
      exact hs

/-- **What was read is shown.** -/
theorem shows_of_read (h : ino.read fs off n = some (bs, ino')) (hbs : bs ≠ []) :
    ino'.Shows off bs := by
  unfold read at h
  dsimp only at h
  split at h
  · cases h
    exact absurd rfl hbs
  · rename_i hlt
    have hnil : ino.Shows off [] := ⟨by simp; omega, fun k hk => absurd hk (by simp)⟩
    exact readLoop_shows hnil rfl (by simp; omega) h

/-- A read changes the cache only. -/
theorem read_inodeOnDisk (h : ino.read fs off n = some (bs, ino')) :
    ino'.inodeOnDisk = ino.inodeOnDisk := by
  have hloop : ∀ {fuel i k : ℕ} {current : Option Ext4Extent} {ino₀ : Ext4Inode}
      {acc : List (BitVec 8)}, readLoop fs off n ino.inodeOnDisk.sizeLo fuel i k current ino₀ acc =
        some (bs, ino') → ino'.inodeOnDisk = ino₀.inodeOnDisk := by
    intro fuel
    induction fuel with
    | zero =>
      intro i k current ino₀ acc h
      cases h
      rfl
    | succ fuel ih =>
      intro i k current ino₀ acc h
      unfold readLoop at h
      split at h
      · split at h
        · dsimp only at h
          split at h
          · cases h
          · cases h
            rfl
        · generalize hread : ino₀.readPage fs i current = r at h
          obtain ⟨p, current', ino₁⟩ := r
          have hsame : ino₁.inodeOnDisk = ino₀.inodeOnDisk := by
            unfold readPage at hread
            split at hread <;> cases hread <;> rfl
          dsimp only at h
          split at h
          · cases h
            exact hsame
          · rw [ih h, hsame]
      · cases h
        rfl
  unfold read at h
  dsimp only at h
  split at h
  · cases h
    rfl
  · exact hloop h

/-! ## Directories -/

variable {before rest rs : List DirRecord}

/-- Reading the directory as a whole gives the bytes of these records. -/
structure Directory (ino : Ext4Inode) (fs : Ext4FileSystem) (rs : List DirRecord) : Prop where
  size : (contents rs).length = ino.getSize
  read : ∃ ino', ino.read fs 0 ino.getSize = some (contents rs, ino')

/-- The rest of the directory, as the operations read it: into a buffer of the size it has. -/
structure ReadsFrom (ino : Ext4Inode) (fs : Ext4FileSystem) (before rest : List DirRecord)
    (ino' : Ext4Inode) : Prop where
  size : (contents (before ++ rest)).length = ino.getSize
  read : ino.readInto fs (contents before).length
    (List.replicate (ino.getSize - (contents before).length) 0) = some (contents rest, ino')
  shows : contents (before ++ rest) ≠ [] → ino'.Shows 0 (contents (before ++ rest))
  inodeOnDisk : ino'.inodeOnDisk = ino.inodeOnDisk

theorem Directory.readsFrom (h : ino.Directory fs rs) : ∃ ino', ino.ReadsFrom fs [] rs ino' := by
  obtain ⟨ino', hread⟩ := h.read
  refine ⟨ino', h.size, ?_, shows_of_read hread, read_inodeOnDisk hread⟩
  rw [contents_nil, List.length_nil, Nat.sub_zero, readInto, List.length_replicate, hread,
    Option.map_some, ← h.size]
  simp

/-- Once its pages are in the cache, a directory is read from any of its records on. -/
theorem ReadsFrom.again {before' rest' : List DirRecord} (h : ino.ReadsFrom fs before rest ino')
    (heq : before' ++ rest' = before ++ rest) : ino'.ReadsFrom fs before' rest' ino' where
  size := by
    rw [heq, h.size, getSize, getSize, h.inodeOnDisk]
  read := by
    have hsize : (contents before').length + (contents rest').length = ino'.getSize := by
      rw [← List.length_append, ← contents_append, heq, h.size, getSize, getSize, h.inodeOnDisk]
    have hread : ino'.read fs (contents before').length (contents rest').length =
        some (contents rest', ino') := by
      by_cases hnil : contents (before ++ rest) = []
      · -- an empty directory
        rw [← heq, contents_append, List.append_eq_nil_iff] at hnil
        rw [hnil.1, hnil.2] at hsize ⊢
        have hzero : ino'.inodeOnDisk.sizeLo = 0 := by
          have : ino'.inodeOnDisk.size = 0 := hsize.symm
          rw [Ext4InodeDisk.sizeLo, this, Nat.zero_mod]
        rw [Ext4Inode.read, if_pos (by rw [hzero]; exact Nat.zero_le _)]
      · have hshows := h.shows hnil
        rw [← heq, contents_append] at hshows
        have hrest := hshows.drop (k := (contents before').length) (by simp)
        rw [List.drop_left, Nat.zero_add] at hrest
        exact read_of_shows hrest
    rw [readInto, List.length_replicate, ← hsize, Nat.add_sub_cancel_left, hread, Option.map_some]
    simp
  shows := by
    rw [heq]
    exact h.shows
  inodeOnDisk := rfl

/-- **`getdents` at the start of a record** returns the records in use from there on, up to the
first that does not fit into the buffer. -/
theorem getdents_of_readsFrom {bufLen : ℕ} (h : ino.ReadsFrom fs before rest ino')
    (hlinks : ino.inodeOnDisk.linksCount ≠ 0) :
    ∃ taken rest', rest = taken ++ rest' ∧
      ino.getdents fs (contents before).length bufLen =
        some (some ((contents taken).length, dirents 0 taken), ino') ∧
      (dirents 0 taken).length ≤ bufLen ∧
      ∀ r ∈ rest'.head?, r.live ∧ bufLen < (dirents 0 taken).length + r.direntLen := by
  obtain ⟨taken, rest', hsplit, hget, hle, hhead⟩ := @getdents_contents rest bufLen
  refine ⟨taken, rest', hsplit, ?_, hle, hhead⟩
  have hsize := h.size
  rw [contents_append, List.length_append] at hsize
  rw [getdents, if_neg hlinks, if_neg (by omega), h.read]
  simp only [Option.bind_eq_bind, Option.bind_some, hget]
  rfl

end Ext4Inode

end QuackOS.Ext4
