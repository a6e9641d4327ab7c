import QuackOS.Ext4.Dir

/-!
# The page cache of an inode

What is written into an inode in memory stands in its page cache, and reads are answered from
there: as long as the inode is in memory, neither its extent tree nor the device has a say in
what a read of written bytes returns.

* `Ext4Inode.Shows` — the cache has these bytes at this offset;
* `Ext4Inode.Kept` — what every call but a write keeps of an inode;
* `shows_of_write`, `read_of_shows` — a write shows its bytes, and shown bytes are read.

The readers take the size from `size_lo`, so this is about files of less than `2 ^ 32` bytes.
-/

namespace QuackOS.Ext4

namespace Ext4Inode

variable {ino ino' ino'' : Ext4Inode} {fs fs' : Ext4FileSystem} {off n : ℕ}
  {data buf : List (BitVec 8)}

/-- The cache has `data` from `off` on, and the file reaches that far. -/
structure Shows (ino : Ext4Inode) (off : ℕ) (data : List (BitVec 8)) : Prop where
  size : off + data.length ≤ ino.inodeOnDisk.sizeLo
  page : ∀ k (hk : k < data.length), ∃ p, ino.pages[(off + k) / pageSize]? = some p ∧
    p.data ((off + k) % pageSize) = data[k]

/-- Nothing was written: the number and the size are the same, and so are the pages that were
in the cache. -/
structure Kept (ino ino' : Ext4Inode) : Prop where
  inodeNum : ino'.inodeNum = ino.inodeNum
  size : ino'.inodeOnDisk.size = ino.inodeOnDisk.size
  pages : ∀ (i : ℕ) (p : Page), ino.pages[i]? = some p → ino'.pages[i]? = some p

theorem Kept.refl (ino : Ext4Inode) : ino.Kept ino := ⟨rfl, rfl, fun _ _ h => h⟩

theorem Kept.trans (h : ino.Kept ino') (h' : ino'.Kept ino'') : ino.Kept ino'' where
  inodeNum := h'.inodeNum.trans h.inodeNum
  size := h'.size.trans h.size
  pages := fun i p hp => h'.pages i p (h.pages i p hp)

theorem Kept.shows (h : ino.Kept ino') (hs : ino.Shows off data) : ino'.Shows off data where
  size := by
    have := hs.size
    unfold Ext4InodeDisk.sizeLo at this ⊢
    rwa [h.size]
  page := fun k hk => by
    obtain ⟨p, hp, hdata⟩ := hs.page k hk
    exact ⟨p, h.pages _ _ hp, hdata⟩

@[simp] theorem getElem?_insertPage (ino : Ext4Inode) (i j : ℕ) (p : Page) :
    (ino.insertPage i p).pages[j]? = if i = j then some p else ino.pages[j]? := by
  simp [insertPage, Std.TreeMap.getElem?_insert]

/-- A page that was not in the cache is put there. -/
theorem kept_insertPage {i : ℕ} {p : Page} (h : ino.pages[i]? = none) :
    ino.Kept (ino.insertPage i p) where
  inodeNum := rfl
  size := rfl
  pages := fun j q hq => by
    rw [getElem?_insertPage, if_neg]
    · exact hq
    · rintro rfl
      rw [h] at hq
      cases hq

/-! ## Reading -/

theorem readPage_kept {i : ℕ} {current current' : Option Ext4Extent} {p : Page}
    (h : ino.readPage fs i current = (p, current', ino')) : ino.Kept ino' := by
  unfold readPage at h
  split at h
  · cases h
    exact .refl ino
  · rename_i hpage
    cases h
    exact kept_insertPage hpage

theorem readLoop_kept {rbufLen inodeSize fuel i pageOffset : ℕ} {current : Option Ext4Extent}
    {acc bs : List (BitVec 8)}
    (h : readLoop fs off rbufLen inodeSize fuel i pageOffset current ino acc = some (bs, ino')) :
    ino.Kept ino' := by
  induction fuel generalizing i pageOffset current ino acc with
  | zero =>
    cases h
    exact .refl _
  | succ fuel ih =>
    unfold readLoop at h
    split at h
    · split at h
      · rename_i hinline
        dsimp only at h
        split at h
        · cases h
        · cases h
          exact kept_insertPage (Option.isNone_iff_eq_none.mp hinline.1)
      · generalize hread : ino.readPage fs i current = r at h
        obtain ⟨p, current', ino₁⟩ := r
        have hkept := readPage_kept hread
        dsimp only at h
        split at h
        · cases h
          exact hkept
        · exact hkept.trans (ih h)
    · cases h
      exact .refl _

/-- **A read keeps the inode.** -/
theorem read_kept {rbufLen : ℕ} {bs : List (BitVec 8)}
    (h : ino.read fs off rbufLen = some (bs, ino')) : ino.Kept ino' := by
  unfold read at h
  dsimp only at h
  split at h
  · cases h
    exact .refl ino
  · exact readLoop_kept h

/-- Bytes shown from `off` on are shown in parts. -/
theorem Shows.drop (h : ino.Shows off data) {k : ℕ} (hk : k ≤ data.length) :
    ino.Shows (off + k) (data.drop k) where
  size := by
    have := h.size
    rw [List.length_drop]
    omega
  page := fun j hj => by
    rw [List.length_drop] at hj
    obtain ⟨p, hp, hdata⟩ := h.page (k + j) (by omega)
    refine ⟨p, ?_, ?_⟩
    · rw [Nat.add_assoc]
      exact hp
    · rw [Nat.add_assoc, hdata, List.getElem_drop]

/-- The bytes of a page are those shown there. -/
theorem slice_of_shows (h : ino.Shows off data) {p : Page}
    (hp : ino.pages[off / pageSize]? = some p) (hn : n ≤ data.length)
    (hpage : off % pageSize + n ≤ pageSize) : p.slice (off % pageSize) n = data.take n := by
  unfold Page.slice
  refine List.ext_getElem (by simp [hn]) fun k h1 h2 => ?_
  have hk : k < n := by simpa using h1
  have hdiv : (off + k) / pageSize = off / pageSize := by
    unfold pageSize at hpage ⊢
    omega
  have hmod : (off + k) % pageSize = off % pageSize + k := by
    unfold pageSize at hpage ⊢
    omega
  obtain ⟨q, hq, hdata⟩ := h.page k (by omega)
  rw [hdiv, hp] at hq
  cases hq
  rw [hmod] at hdata
  simp [hdata]

/-- Where the next round of a loop over pages starts. -/
theorem next_page {k : ℕ} (hk : off % pageSize + k = pageSize) :
    (off + k) / pageSize = off / pageSize + 1 ∧ (off + k) % pageSize = 0 := by
  unfold pageSize at hk ⊢
  omega

/-- The loop of `read` over bytes that are shown: the rest of them is what it adds, and no page
is fetched. -/
theorem readLoop_of_shows {base rbufLen inodeSize fuel : ℕ} {current : Option Ext4Extent}
    {acc : List (BitVec 8)} (hs : ino.Shows (base + acc.length) data)
    (hsize : ino.inodeOnDisk.sizeLo = inodeSize) (hlen : acc.length + data.length = rbufLen)
    (hfuel : data.length ≤ fuel) :
    readLoop fs base rbufLen inodeSize fuel ((base + acc.length) / pageSize)
      ((base + acc.length) % pageSize) current ino acc = some (acc ++ data, ino) := by
  induction fuel generalizing acc data with
  | zero =>
    have hnil : data = [] := List.eq_nil_of_length_eq_zero (by omega)
    rw [hnil, List.append_nil]
    rfl
  | succ fuel ih =>
    unfold readLoop
    by_cases hdone : acc.length < rbufLen
    · obtain ⟨p, hp, -⟩ := hs.page 0 (by omega)
      rw [Nat.add_zero] at hp
      have hread : ino.readPage fs ((base + acc.length) / pageSize) current = (p, current, ino) := by
        rw [readPage, hp]
      rw [if_pos hdone, if_neg (by simp [hp]), hread]
      dsimp only
      have hmod := Nat.mod_lt (base + acc.length) (show 0 < pageSize by decide)
      have hle := hs.size
      -- the size does not cut the copy short
      have hcopy : min (min (rbufLen - acc.length) (pageSize - (base + acc.length) % pageSize))
          (inodeSize - (acc.length + base)) =
          min data.length (pageSize - (base + acc.length) % pageSize) := by omega
      rw [hcopy]
      generalize hk : min data.length (pageSize - (base + acc.length) % pageSize) = k
      have hk₁ : k ≤ data.length := by omega
      have hk₂ : (base + acc.length) % pageSize + k ≤ pageSize := by omega
      rw [slice_of_shows hs hp hk₁ hk₂]
      have hacc : (acc ++ data.take k).length = acc.length + k := by simp [hk₁]
      by_cases hall : k = data.length
      · have htake : data.take k = data := by rw [hall, List.take_length]
        rw [htake]
        split
        · rfl
        · have hend : (acc ++ data).length = rbufLen := by rw [List.length_append, hlen]
          cases fuel with
          | zero => rfl
          | succ fuel =>
            unfold readLoop
            rw [if_neg (by omega)]
      · have hfull : (base + acc.length) % pageSize + k = pageSize := by omega
        rw [if_neg (by omega)]
        obtain ⟨hdiv, hzero⟩ := next_page hfull
        have hrest : ino.Shows (base + (acc ++ data.take k).length) (data.drop k) := by
          rw [hacc, ← Nat.add_assoc]
          exact hs.drop hk₁
        have hnext := ih hrest (by rw [hacc, List.length_drop]; omega)
          (by rw [List.length_drop]; omega)
        rw [hacc, ← Nat.add_assoc, hdiv, hzero, List.append_assoc, List.take_append_drop] at hnext
        exact hnext
    · have hnil : data = [] := List.eq_nil_of_length_eq_zero (by omega)
      rw [if_neg hdone, hnil, List.append_nil]

/-- **Shown bytes are read.** -/
theorem read_of_shows (h : ino.Shows off data) :
    ino.read fs off data.length = some (data, ino) := by
  unfold read
  dsimp only
  have hsize := h.size
  split
  · have hnil : data = [] := List.eq_nil_of_length_eq_zero (by omega)
    rw [hnil]
  · have hloop := @readLoop_of_shows ino fs data off data.length _ data.length none [] h rfl
      (by simp) le_rfl
    simpa using hloop

/-! ## Writing -/

/-- What a write keeps of an inode: its number, and its size until it sets it. -/
structure Same (ino ino' : Ext4Inode) : Prop where
  inodeNum : ino'.inodeNum = ino.inodeNum
  size : ino'.inodeOnDisk.size = ino.inodeOnDisk.size

theorem Same.refl (ino : Ext4Inode) : ino.Same ino := ⟨rfl, rfl⟩

theorem Same.trans (h : ino.Same ino') (h' : ino'.Same ino'') : ino.Same ino'' :=
  ⟨h'.inodeNum.trans h.inodeNum, h'.size.trans h.size⟩

theorem Kept.same (h : ino.Kept ino') : ino.Same ino' := ⟨h.inodeNum, h.size⟩

/-- An insertion changes the root of the tree and no other field. -/
theorem insertExtent_frame {d d' : Ext4InodeDisk} {l : UInt32} {p : ℕ} {count : UInt32}
    {r : Except String Unit} (h : d.insertExtent l p count fs = some (r, d', fs')) :
    d' = { d with block := d'.block } := by
  unfold Ext4InodeDisk.insertExtent at h
  dsimp only at h
  split at h
  · obtain ⟨_, _, heq⟩ := Option.map_eq_some_iff.mp h
    cases heq
    rfl
  · split at h
    · cases h
      rfl
    · split at h
      · split at h
        · cases h
        · obtain ⟨_, _, heq⟩ := Option.map_eq_some_iff.mp h
          cases heq
          rfl
      · cases h
        rfl

theorem lookupOrCreateExtent_frame {d d' : Ext4InodeDisk} {l : UInt32} {e : Ext4Extent}
    (h : d.lookupOrCreateExtent fs l = some (e, d', fs')) : d' = { d with block := d'.block } := by
  unfold Ext4InodeDisk.lookupOrCreateExtent at h
  split at h
  · cases h
    rfl
  · split at h
    · cases h
    · dsimp only at h
      split at h
      · rename_i hins
        cases h
        exact insertExtent_frame hins
      · cases h

theorem lookupOrCreateExtent_size {d d' : Ext4InodeDisk} {l : UInt32} {e : Ext4Extent}
    (h : d.lookupOrCreateExtent fs l = some (e, d', fs')) : d'.size = d.size := by
  rw [lookupOrCreateExtent_frame h]

/-- A page that was not in the cache is put there, after a block was found for it. -/
theorem kept_fetch {i : ℕ} {p : Page} {d : Ext4InodeDisk} (h : ino.pages[i]? = none)
    (hsize : d.size = ino.inodeOnDisk.size) :
    ino.Kept ({ ino with inodeOnDisk := d }.insertPage i p) where
  inodeNum := rfl
  size := hsize
  pages := (@kept_insertPage { ino with inodeOnDisk := d } i p h).pages

theorem getPageCache_kept {i : ℕ} {p : Option Page}
    (h : ino.getPageCache fs i = some (p, ino', fs')) : ino.Kept ino' := by
  unfold getPageCache at h
  split at h
  · cases h
    exact .refl _
  · split at h
    · cases h
      exact .refl _
    · rename_i hpage
      split at h
      · cases h
        exact kept_insertPage hpage
      · dsimp only at h
        split at h
        · cases h
        · rename_i hl
          cases h
          exact kept_fetch hpage (lookupOrCreateExtent_size hl)

/-- The page a round of the loop writes into is fetched; the others stay. -/
theorem writePage_kept {i : ℕ} {current current' : Option Ext4Extent} {p : Page}
    (h : ino.writePage fs i current = some (p, current', ino', fs')) :
    ino.Kept ino' ∧ ∀ j ≠ i, ino'.pages[j]? = ino.pages[j]? := by
  unfold writePage at h
  split at h
  · cases h
    exact ⟨.refl _, fun _ _ => rfl⟩
  · rename_i hpage
    dsimp only at h
    split at h
    · cases h
      refine ⟨kept_insertPage hpage, fun j hj => ?_⟩
      rw [getElem?_insertPage, if_neg (Ne.symm hj)]
    · split at h
      · cases h
      · rename_i hl
        cases h
        refine ⟨kept_fetch hpage (lookupOrCreateExtent_size hl), fun j hj => ?_⟩
        rw [getElem?_insertPage, if_neg (Ne.symm hj)]

/-- The byte of a page that bytes were copied into. -/
theorem copyIn_data (p : Page) {bs : List (BitVec 8)} {k : ℕ} (hk : k < bs.length) :
    (p.copyIn off bs).data (off + k) = bs[k] := by
  simp [Page.copyIn, hk]

/-- The loop of `write_extent_tree`: the bytes stand in the pages, and the pages before the
first of them are not touched. -/
theorem writeLoop_spec {fuel i pageOffset : ℕ} {current : Option Ext4Extent}
    (h : writeLoop fuel i pageOffset current buf ino fs = some (ino', fs'))
    (hfuel : buf.length ≤ fuel) (hoff : pageOffset < pageSize) :
    ino.Same ino' ∧ (∀ j < i, ino'.pages[j]? = ino.pages[j]?) ∧
      ∀ k (hk : k < buf.length), ∃ p, ino'.pages[(i * pageSize + pageOffset + k) / pageSize]? = some p ∧
        p.data ((i * pageSize + pageOffset + k) % pageSize) = buf[k] := by
  induction fuel generalizing i pageOffset current buf ino fs with
  | zero =>
    cases h
    refine ⟨.refl _, fun _ _ => rfl, fun k hk => ?_⟩
    omega
  | succ fuel ih =>
    unfold writeLoop at h
    split at h
    · cases h
      refine ⟨.refl _, fun _ _ => rfl, fun k hk => ?_⟩
      omega
    · split at h
      · cases h
      · rename_i hne p current' ino₁ fs₁ hpage
        dsimp only at h
        generalize hn : min buf.length (pageSize - pageOffset) = n at h
        obtain ⟨hkept, hpages⟩ := writePage_kept hpage
        obtain ⟨hsame', hbelow, hdata⟩ := ih h (by rw [List.length_drop]; omega) (by decide)
        refine ⟨hkept.same.trans ⟨hsame'.inodeNum, hsame'.size⟩, fun j hj => ?_, fun k hk => ?_⟩
        · rw [hbelow j (by omega), getElem?_insertPage, if_neg (by omega), hpages j (by omega)]
        · by_cases hkn : k < n
          · -- written in this round, into a page that later rounds leave alone
            have hdiv : (i * pageSize + pageOffset + k) / pageSize = i := by
              unfold pageSize at hn hoff ⊢
              omega
            have hmod : (i * pageSize + pageOffset + k) % pageSize = pageOffset + k := by
              unfold pageSize at hn hoff ⊢
              omega
            have hlen : k < (buf.take n).length := by
              rw [List.length_take]
              omega
            refine ⟨p.copyIn pageOffset (buf.take n), ?_, ?_⟩
            · rw [hdiv, hbelow i (by omega), getElem?_insertPage, if_pos rfl]
            · rw [hmod, copyIn_data p hlen, List.getElem_take]
          · have hk' : k - n < (buf.drop n).length := by
              rw [List.length_drop]
              omega
            obtain ⟨q, hq, hbyte⟩ := hdata (k - n) hk'
            have hpos : (i + 1) * pageSize + 0 + (k - n) = i * pageSize + pageOffset + k := by
              unfold pageSize at hn hoff ⊢
              omega
            rw [hpos] at hq hbyte
            refine ⟨q, hq, ?_⟩
            rw [hbyte, List.getElem_drop]
            congr 1
            omega

theorem convertPage_same {newBlock : ℕ}
    (h : ino.convertPage fs newBlock = some (ino', fs')) : ino.Same ino' := by
  unfold convertPage at h
  split at h
  · split at h
    · rename_i hcache
      cases h
      have hsame := (getPageCache_kept hcache).same
      exact ⟨hsame.inodeNum, hsame.size⟩
    · cases h
  · cases h
    exact .refl _

theorem convert_same (h : ino.convert fs off = some (ino', fs')) : ino.Same ino' := by
  unfold convert at h
  split at h
  · cases h
  · split at h
    · cases h
    · rename_i hpage
      cases h
      have hsame := convertPage_same hpage
      exact ⟨hsame.inodeNum, hsame.size⟩

/-- The size after a write that ends at `n`. -/
def sizeAfter (ino : Ext4Inode) (n : ℕ) : ℕ := max ino.getSize n

theorem size_grow (ino : Ext4Inode) (n : ℕ) :
    (if ino.getSize < n then ino.setSize n else ino).inodeOnDisk.size = ino.sizeAfter n := by
  unfold sizeAfter
  split
  · rename_i h
    rw [max_eq_right h.le]
    rfl
  · rename_i h
    rw [max_eq_left (not_lt.mp h)]
    rfl

theorem inodeNum_grow (ino : Ext4Inode) (n : ℕ) :
    (if ino.getSize < n then ino.setSize n else ino).inodeNum = ino.inodeNum := by
  split <;> rfl

theorem pages_grow (ino : Ext4Inode) (n : ℕ) :
    (if ino.getSize < n then ino.setSize n else ino).pages = ino.pages := by
  split <;> rfl

/-- What a write of `buf` at `off` does to the number, the size and the cache. -/
structure Wrote (ino ino' : Ext4Inode) (off : ℕ) (buf : List (BitVec 8)) : Prop where
  inodeNum : ino'.inodeNum = ino.inodeNum
  size : ino'.inodeOnDisk.size = ino.sizeAfter (usize (off + buf.length))
  page : buf.length < 2 ^ 64 → ∀ k (hk : k < buf.length), ∃ p, ino'.pages[(off + k) / pageSize]? = some p ∧
    p.data ((off + k) % pageSize) = buf[k]

theorem Same.wrote (h : ino.Same ino') (h' : ino'.Wrote ino'' off buf) : ino.Wrote ino'' off buf where
  inodeNum := h'.inodeNum.trans h.inodeNum
  size := by
    rw [h'.size]
    unfold sizeAfter getSize
    rw [h.size]
  page := h'.page

theorem writeExtentTree_spec (h : ino.writeExtentTree fs off buf = some (n, ino', fs')) :
    n = buf.length ∧ ino.Wrote ino' off buf := by
  unfold writeExtentTree at h
  split at h
  · cases h
  · rename_i ino₁ fs₁ hloop
    cases h
    obtain ⟨hsame, -, hpages⟩ := writeLoop_spec hloop le_rfl (Nat.mod_lt off (by decide))
    have hpos : ∀ k, off / pageSize * pageSize + off % pageSize + k = off + k := by
      intro k
      rw [Nat.div_add_mod']
    simp only [hpos] at hpages
    refine ⟨rfl, hsame.wrote ⟨?_, ?_, ?_⟩⟩
    · exact inodeNum_grow ..
    · exact size_grow ..
    · rw [pages_grow]
      exact fun _ => hpages

/-- **What a write does.** -/
theorem write_spec (h : ino.write fs off buf = some (n, ino', fs')) :
    n = buf.length ∧ ino.Wrote ino' off buf := by
  unfold write at h
  dsimp only at h
  split at h
  · rename_i hsmall
    obtain ⟨⟨page?, ino₁, fs₁⟩, hcache, h⟩ := Option.bind_eq_some_iff.mp h
    obtain ⟨page, rfl, h⟩ := Option.bind_eq_some_iff.mp h
    split at h
    · cases h
    · rename_i hwrap
      cases h
      have hsame := (getPageCache_kept hcache).same
      refine ⟨rfl, hsame.wrote ⟨?_, ?_, fun hlt k hk => ?_⟩⟩
      · exact inodeNum_grow ..
      · exact size_grow ..
      · -- all of the bytes lie in page 0
        have hlen : off + buf.length ≤ 60 := by
          unfold usize at hsmall hwrap
          omega
        have hdiv : (off + k) / pageSize = 0 := by
          unfold pageSize
          omega
        have hmod : (off + k) % pageSize = off + k := by
          unfold pageSize
          omega
        rw [pages_grow, hdiv, hmod, getElem?_insertPage, if_pos rfl]
        exact ⟨_, rfl, copyIn_data page hk⟩
  · split at h
    · obtain ⟨⟨ino₁, fs₁⟩, hconv, h⟩ := Option.bind_eq_some_iff.mp h
      obtain ⟨hn, hwrote⟩ := writeExtentTree_spec h
      exact ⟨hn, (convert_same hconv).wrote hwrote⟩
    · exact writeExtentTree_spec h

/-- **Written bytes are shown**, in a file that stays below `2 ^ 32` bytes. -/
theorem Wrote.shows (h : ino.Wrote ino' off buf)
    (hsize : ino.sizeAfter (off + buf.length) < 2 ^ 32) : ino'.Shows off buf where
  size := by
    have hle : off + buf.length ≤ ino.sizeAfter (off + buf.length) := le_max_right _ _
    have husize : usize (off + buf.length) = off + buf.length := Nat.mod_eq_of_lt (by omega)
    rw [Ext4InodeDisk.sizeLo, h.size, husize, Nat.mod_eq_of_lt hsize]
    exact hle
  page := h.page (by
    have hle : off + buf.length ≤ ino.sizeAfter (off + buf.length) := le_max_right _ _
    omega)

/-! ## Writing elsewhere -/

/-- The bytes the cache has outside of the range from `lo` to `hi` are the same. -/
def Outside (ino ino' : Ext4Inode) (lo hi : ℕ) : Prop :=
  ∀ (j : ℕ) (p : Page), ino.pages[j]? = some p → ∃ p', ino'.pages[j]? = some p' ∧
    ∀ x < pageSize, j * pageSize + x < lo ∨ hi ≤ j * pageSize + x → p'.data x = p.data x

theorem Outside.refl (ino : Ext4Inode) (lo hi : ℕ) : ino.Outside ino lo hi :=
  fun _ p hp => ⟨p, hp, fun _ _ _ => rfl⟩

theorem Kept.outside (h : ino.Kept ino') (lo hi : ℕ) : ino.Outside ino' lo hi :=
  fun j p hp => ⟨p, h.pages j p hp, fun _ _ _ => rfl⟩

theorem Outside.trans {lo mid hi : ℕ} (h : ino.Outside ino' lo mid) (h' : ino'.Outside ino'' mid hi)
    (hlo : lo ≤ mid) (hhi : mid ≤ hi) : ino.Outside ino'' lo hi := by
  intro j p hp
  obtain ⟨p', hp', hdata⟩ := h j p hp
  obtain ⟨p'', hp'', hdata'⟩ := h' j p' hp'
  refine ⟨p'', hp'', fun x hx hout => ?_⟩
  rw [hdata' x hx (by omega), hdata x hx (by omega)]

/-- Bytes copied into a page that is in the cache, or is put there. -/
theorem outside_copyIn {i : ℕ} {p : Page} {bs : List (BitVec 8)}
    (hp : ∀ q, ino.pages[i]? = some q → q = p) :
    ino.Outside (ino.insertPage i (p.copyIn off bs)) (i * pageSize + off)
      (i * pageSize + off + bs.length) := by
  intro j q hq
  rw [getElem?_insertPage]
  split
  · rename_i hij
    subst hij
    obtain rfl := hp q hq
    refine ⟨_, rfl, fun x hx hout => ?_⟩
    unfold Page.copyIn
    dsimp only
    split
    · rw [List.getElem?_eq_none (by omega), Option.getD_none]
    · rfl
  · exact ⟨q, hq, fun _ _ _ => rfl⟩

/-- The page a round of the loop writes into is the one in the cache, if it is there. -/
theorem writePage_page {i : ℕ} {current current' : Option Ext4Extent} {p q : Page}
    (h : ino.writePage fs i current = some (p, current', ino', fs'))
    (hq : ino'.pages[i]? = some q) : q = p := by
  unfold writePage at h
  split at h
  · rename_i hpage
    cases h
    rw [hpage] at hq
    exact (Option.some.inj hq).symm
  · dsimp only at h
    split at h
    · cases h
      rw [getElem?_insertPage, if_pos rfl] at hq
      exact (Option.some.inj hq).symm
    · split at h
      · cases h
      · cases h
        rw [getElem?_insertPage, if_pos rfl] at hq
        exact (Option.some.inj hq).symm

theorem writeLoop_outside {fuel i pageOffset : ℕ} {current : Option Ext4Extent}
    (h : writeLoop fuel i pageOffset current buf ino fs = some (ino', fs'))
    (hoff : pageOffset < pageSize) :
    ino.Outside ino' (i * pageSize + pageOffset) (i * pageSize + pageOffset + buf.length) := by
  induction fuel generalizing i pageOffset current buf ino fs with
  | zero =>
    cases h
    exact Outside.refl _ _ _
  | succ fuel ih =>
    unfold writeLoop at h
    split at h
    · cases h
      exact Outside.refl _ _ _
    · split at h
      · cases h
      · rename_i hne p current' ino₁ fs₁ hpage
        dsimp only at h
        generalize hn : min buf.length (pageSize - pageOffset) = n at h
        have hlen : (buf.take n).length = n := by
          rw [List.length_take]
          omega
        have hcopy := @outside_copyIn ino₁ pageOffset i p (buf.take n)
          (fun q hq => writePage_page hpage hq)
        rw [hlen] at hcopy
        have hround := ((writePage_kept hpage).1.outside (i * pageSize + pageOffset)
          (i * pageSize + pageOffset)).trans hcopy le_rfl (by omega)
        by_cases hall : n = buf.length
        · -- the last round
          have hnil : buf.drop n = [] := List.drop_of_length_le hall.ge
          rw [hnil] at h
          have hend : ino' = ino₁.insertPage i (p.copyIn pageOffset (buf.take n)) := by
            cases fuel with
            | zero =>
              cases h
              rfl
            | succ fuel =>
              cases h
              rfl
          rw [hend, ← hall]
          exact hround
        · have hrest := ih h (by decide)
          have hpos : (i + 1) * pageSize + 0 = i * pageSize + pageOffset + n := by
            unfold pageSize at hn hoff ⊢
            omega
          rw [hpos, List.length_drop] at hrest
          have hsum : i * pageSize + pageOffset + n + (buf.length - n) =
              i * pageSize + pageOffset + buf.length := by omega
          rw [hsum] at hrest
          exact hround.trans hrest (by omega) (by omega)

/-- What is shown outside of the range stays shown, if the file does not shrink. -/
theorem Outside.shows {lo hi : ℕ} (h : ino.Outside ino' lo hi) (hs : ino.Shows off data)
    (hout : off + data.length ≤ lo ∨ hi ≤ off)
    (hsize : off + data.length ≤ ino'.inodeOnDisk.sizeLo) : ino'.Shows off data where
  size := hsize
  page := fun k hk => by
    obtain ⟨p, hp, hdata⟩ := hs.page k hk
    obtain ⟨p', hp', hsame⟩ := h _ p hp
    have hpos := Nat.div_add_mod' (off + k) pageSize
    refine ⟨p', hp', ?_⟩
    rw [hsame _ (Nat.mod_lt _ (by decide)) (by omega), hdata]

/-- The page `get_page_cache` returns is in the cache. -/
theorem getPageCache_page {i : ℕ} {p : Page}
    (h : ino.getPageCache fs i = some (some p, ino', fs')) : ino'.pages[i]? = some p := by
  unfold getPageCache at h
  split at h
  · cases h
  · split at h
    · rename_i hpage
      cases h
      exact hpage
    · split at h
      · cases h
        rw [getElem?_insertPage, if_pos rfl]
      · dsimp only at h
        split at h
        · cases h
        · cases h
          rw [getElem?_insertPage, if_pos rfl]

/-- The conversion keeps the 60 bytes an inline file can have. -/
theorem convert_shows {off' : ℕ} (h : ino.convert fs off' = some (ino', fs'))
    (hs : ino.Shows off data) (hsmall : ino.getSize ≤ 60) : ino'.Shows off data := by
  have hsame := convert_same h
  have hsize := hs.size
  have hsizeLo : ino.inodeOnDisk.sizeLo = ino.getSize := Nat.mod_eq_of_lt (lt_of_le_of_lt hsmall (by decide))
  refine ⟨?_, fun k hk => ?_⟩
  · unfold Ext4InodeDisk.sizeLo at hsize ⊢
    rwa [hsame.size]
  · obtain ⟨p, hp, hdata⟩ := hs.page k hk
    have hdiv : (off + k) / pageSize = 0 := by
      unfold pageSize
      omega
    have hmod : (off + k) % pageSize = off + k := by
      unfold pageSize
      omega
    rw [hdiv] at hp ⊢
    rw [hmod] at hdata ⊢
    unfold convert at h
    split at h
    · cases h
    · split at h
      · cases h
      · rename_i hpage
        cases h
        unfold convertPage at hpage
        rw [if_pos (by omega)] at hpage
        split at hpage
        · rename_i inlinePage ino₁ fs₁ hcache
          cases hpage
          have hin : ino₁.pages[0]? = some p := (getPageCache_kept hcache).pages 0 p hp
          rw [getPageCache_page hcache] at hin
          cases hin
          refine ⟨_, getElem?_insertPage .., ?_⟩
          dsimp only
          rw [if_pos (by omega), hdata]
        · cases hpage

theorem writeExtentTree_outside (h : ino.writeExtentTree fs off buf = some (n, ino', fs')) :
    ino.Outside ino' off (off + buf.length) := by
  unfold writeExtentTree at h
  split at h
  · cases h
  · rename_i ino₁ fs₁ hloop
    cases h
    have hout := writeLoop_outside hloop (Nat.mod_lt off (by decide))
    rw [Nat.div_add_mod'] at hout
    intro j p hp
    rw [pages_grow]
    exact hout j p hp

/-- **Shown bytes stay shown** through a write elsewhere in the file. -/
theorem shows_of_write_elsewhere {off' : ℕ} (hs : ino.Shows off data)
    (h : ino.write fs off' buf = some (n, ino', fs'))
    (hout : off + data.length ≤ off' ∨ off' + buf.length ≤ off)
    (hfits : ino.sizeAfter (off' + buf.length) < 2 ^ 32) : ino'.Shows off data := by
  obtain ⟨-, hwrote⟩ := write_spec h
  have hend : off' + buf.length ≤ ino.sizeAfter (off' + buf.length) := le_max_right _ _
  have hbefore : ino.getSize ≤ ino.sizeAfter (off' + buf.length) := le_max_left _ _
  have husize : usize (off' + buf.length) = off' + buf.length := Nat.mod_eq_of_lt (by omega)
  have hsize : off + data.length ≤ ino'.inodeOnDisk.sizeLo := by
    have hle := hs.size
    have hsizeLo : ino.inodeOnDisk.sizeLo = ino.getSize :=
      Nat.mod_eq_of_lt (lt_of_le_of_lt hbefore hfits)
    rw [Ext4InodeDisk.sizeLo, hwrote.size, husize, Nat.mod_eq_of_lt hfits]
    omega
  unfold write at h
  dsimp only at h
  split at h
  · rename_i hsmall
    obtain ⟨⟨page?, ino₁, fs₁⟩, hcache, h⟩ := Option.bind_eq_some_iff.mp h
    obtain ⟨page, rfl, h⟩ := Option.bind_eq_some_iff.mp h
    split at h
    · cases h
    · cases h
      have hcopy := @outside_copyIn ino₁ off' 0 page buf fun q hq => by
        rw [getPageCache_page hcache] at hq
        exact (Option.some.inj hq).symm
      rw [Nat.zero_mul, Nat.zero_add] at hcopy
      have hboth := ((getPageCache_kept hcache).outside off' off').trans hcopy le_rfl (by omega)
      refine Outside.shows ?_ hs hout hsize
      intro j p hp
      rw [pages_grow]
      exact hboth j p hp
  · split at h
    · rename_i hsmall
      obtain ⟨⟨ino₁, fs₁⟩, hconv, h⟩ := Option.bind_eq_some_iff.mp h
      exact (writeExtentTree_outside h).shows (convert_shows hconv hs hsmall) hout hsize
    · exact (writeExtentTree_outside h).shows hs hout hsize

/-! ## Directories -/

theorem readInto_kept {bs : List (BitVec 8)} (h : ino.readInto fs off buf = some (bs, ino')) :
    ino.Kept ino' := by
  obtain ⟨⟨r, ino₁⟩, hread, heq⟩ := Option.map_eq_some_iff.mp h
  cases heq
  exact read_kept hread

theorem lookup_kept {name : Name} {entry : Option Ext4DirEntry}
    (h : ino.lookup fs name = some (entry, ino')) : ino.Kept ino' := by
  obtain ⟨⟨content, ino₁⟩, hread, h⟩ := Option.bind_eq_some_iff.mp h
  obtain ⟨entry', -, h⟩ := Option.bind_eq_some_iff.mp h
  cases h
  exact readInto_kept hread

theorem getdents_kept {r : Option (ℕ × List (BitVec 8))}
    (h : ino.getdents fs off n = some (r, ino')) : ino.Kept ino' := by
  unfold getdents at h
  split at h
  · cases h
    exact .refl _
  · split at h
    · cases h
    · obtain ⟨⟨content, ino₁⟩, hread, h⟩ := Option.bind_eq_some_iff.mp h
      obtain ⟨r', -, h⟩ := Option.bind_eq_some_iff.mp h
      cases h
      exact readInto_kept hread

theorem linkBytes_kept {bs : List (BitVec 8)} (h : ino.linkBytes fs = some (bs, ino')) :
    ino.Kept ino' := by
  unfold linkBytes at h
  dsimp only at h
  split at h
  · cases h
    exact .refl _
  · exact readInto_kept h

theorem inodeNum_setSize (ino : Ext4Inode) (n : ℕ) : (ino.setSize n).inodeNum = ino.inodeNum := rfl

/-- What `extend_dir` does one after the other, when it gets to the end. -/
theorem extendDir_steps {name : Name} {num : UInt32} {ty : UInt8}
    (h : ino.extendDir fs name num ty buf = some (ino', fs')) :
    ∃ newBlock fs₁ r d fs₂ n₂ ino₂ fs₃ buf₁ ino₃ buf₂ n₄,
      fs.allocOneBlock = some (newBlock, fs₁) ∧
      ino.inodeOnDisk.insertExtent (UInt32.ofNat (ino.getSize / pageSize)) newBlock 1 fs₁ =
        some (r, d, fs₂) ∧
      ({ ino with inodeOnDisk := d }.setSize (usize (ino.getSize + pageSize))).write fs₂ ino.getSize
        emptyDentry = some (n₂, ino₂, fs₃) ∧
      ino₂.readInto fs₃ ino.getSize buf = some (buf₁, ino₃) ∧
      DirContent.addEntry buf₁ name num ty = some (.ok buf₂) ∧
      ino₃.write fs₃ ino.getSize buf₂ = some (n₄, ino', fs') := by
  unfold extendDir at h
  obtain ⟨⟨newBlock, fs₁⟩, halloc, h⟩ := Option.bind_eq_some_iff.mp h
  obtain ⟨⟨r, d, fs₂⟩, hins, h⟩ := Option.bind_eq_some_iff.mp h
  obtain ⟨⟨n₂, ino₂, fs₃⟩, hwrite, h⟩ := Option.bind_eq_some_iff.mp h
  obtain ⟨⟨buf₁, ino₃⟩, hread, h⟩ := Option.bind_eq_some_iff.mp h
  obtain ⟨r', hadd, h⟩ := Option.bind_eq_some_iff.mp h
  cases r' with
  | error e => cases h
  | ok buf₂ =>
    obtain ⟨⟨n₄, ino₄, fs₄⟩, hback, h⟩ := Option.bind_eq_some_iff.mp h
    cases h
    exact ⟨newBlock, fs₁, r, d, fs₂, n₂, ino₂, fs₃, buf₁, ino₃, buf₂, n₄, halloc, hins, hwrite, hread,
      hadd, hback⟩

theorem extendDir_inodeNum {name : Name} {num : UInt32} {ty : UInt8}
    (h : ino.extendDir fs name num ty buf = some (ino', fs')) : ino'.inodeNum = ino.inodeNum := by
  obtain ⟨_, _, _, d, _, _, ino₂, _, _, ino₃, _, _, -, -, hwrite, hread, -, hback⟩ := extendDir_steps h
  calc ino'.inodeNum = ino₃.inodeNum := (write_spec hback).2.inodeNum
    _ = ino₂.inodeNum := (readInto_kept hread).inodeNum
    _ = Ext4Inode.inodeNum { ino with inodeOnDisk := d } :=
      (write_spec hwrite).2.inodeNum.trans (inodeNum_setSize ..)

theorem addEntry_inodeNum {seed gen num : UInt32} {name : Name} {ty : UInt8}
    (h : ino.addEntry fs seed gen name num ty = some (ino', fs')) :
    ino'.inodeNum = ino.inodeNum := by
  unfold addEntry at h
  obtain ⟨⟨content, ino₁⟩, hread, h⟩ := Option.bind_eq_some_iff.mp h
  have hkept := readInto_kept hread
  obtain ⟨r, -, h⟩ := Option.bind_eq_some_iff.mp h
  cases r with
  | ok buf' =>
    obtain ⟨buf'', -, h⟩ := Option.bind_eq_some_iff.mp h
    obtain ⟨⟨n₂, ino₂, fs₁⟩, hwrite, h⟩ := Option.bind_eq_some_iff.mp h
    cases h
    rw [(write_spec hwrite).2.inodeNum, hkept.inodeNum]
  | error e => rw [extendDir_inodeNum h, hkept.inodeNum]

theorem deleteEntry_inodeNum {seed gen : UInt32} {name : Name} {found : Bool}
    (h : ino.deleteEntry fs seed gen name = some (found, ino', fs')) :
    ino'.inodeNum = ino.inodeNum := by
  unfold deleteEntry at h
  obtain ⟨⟨content, ino₁⟩, hread, h⟩ := Option.bind_eq_some_iff.mp h
  have hkept := readInto_kept hread
  obtain ⟨r, -, h⟩ := Option.bind_eq_some_iff.mp h
  cases r with
  | none =>
    cases h
    exact hkept.inodeNum
  | some buf' =>
    obtain ⟨buf'', -, h⟩ := Option.bind_eq_some_iff.mp h
    obtain ⟨⟨n₂, ino₂, fs₁⟩, hwrite, h⟩ := Option.bind_eq_some_iff.mp h
    cases h
    rw [(write_spec hwrite).2.inodeNum, hkept.inodeNum]

end Ext4Inode

end QuackOS.Ext4
