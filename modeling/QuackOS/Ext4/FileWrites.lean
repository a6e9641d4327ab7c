import QuackOS.Ext4.Contents

/-!
# What a write makes of the contents

`write` goes one of three ways: into the first page of a file that stays at 60 bytes or below,
through the conversion of such a file to one with an extent tree, or page by page.  Whichever it
is, the bytes are put over the contents, and everything else in them stays.

* `Overwritten` — bytes were put at a place, and the others are as before;
* `writeLoop_contents` — the loop over pages;
* `convert_contents` — the conversion changes no byte;
* `write_contents` — `write` is `Contents.write`.
-/

namespace QuackOS.Ext4

open Buffer Ext4ExtentBlock

namespace Ext4Inode

variable {R : Set ℕ} {ino ino' ino'' : Ext4Inode} {fs fs' fs'' : Ext4FileSystem} {off : ℕ}
  {buf bs : List (BitVec 8)}

/-! ## Fetching a page -/

/-- `get_page_cache` fetches the page, or finds that it lies past the end. -/
theorem getPageCache_intact (ho : Owns R fs ino.inodeOnDisk) (hs : ino.Sane fs) {i : ℕ}
    {p : Option Page} (hg : ino.getPageCache fs i = some (p, ino', fs')) :
    ino.Intact fs ino' fs' ∧ ∀ q, p = some q → q.data = ino.pageAt fs i ∧ ino'.pages[i]? = some q := by
  have hsize := hs.size
  unfold getPageCache at hg
  split at hg
  · cases hg
    exact ⟨.refl hs, fun q hq => by cases hq⟩
  · rename_i hin
    rw [hs.sizeLo] at hin
    split at hg
    · rename_i q hpage
      cases hg
      refine ⟨.refl hs, ?_⟩
      rintro _ ⟨⟩
      exact ⟨by rw [pageAt, hpage], hpage⟩
    · rename_i hnone
      have hat : ino.pageAt fs i = ino.inodeOnDisk.diskPage fs i := by rw [pageAt, hnone]
      split at hg
      · rename_i hinline
        obtain ⟨rfl, hflag⟩ := hinline
        cases hg
        refine ⟨hs.fetchClean hnone (diskPage_inline hflag), ?_⟩
        rintro _ ⟨⟩
        exact ⟨(diskPage_inline hflag).trans hat.symm, by rw [getElem?_insertPage, if_pos rfl]⟩
      · rename_i hnot
        have hflag : ino.inodeOnDisk.hasInlineData = false := by
          by_contra hflag
          rw [Bool.not_eq_false] at hflag
          have hle : ino.getSize ≤ 60 := ho.ordered.inlineSize hflag
          refine hnot ⟨?_, hflag⟩
          unfold pageSize at hin
          omega
        dsimp only at hg
        split at hg
        · cases hg
        · rename_i e d fs₁ hl
          cases hg
          have hi : i + 1 < 2 ^ 32 := by
            unfold pageSize at hin
            omega
          have hli : (UInt32.ofNat i).toNat = i := UInt32.toNat_ofNat_of_lt' (Nat.lt_of_succ_lt hi)
          have hframe := lookupOrCreateExtent_frame hl
          rw [logicalBlockOf_eq ho.sound.blockSize] at hl ⊢
          have hf := Ext4InodeDisk.lookupOrCreateExtent_contents ho hflag (hs.tree hflag)
            (by rw [hli]; exact hi) hl
          have hdata : (newPageCache fs' (fsBlockIdOf e (UInt32.ofNat i))).data =
              ino.inodeOnDisk.diskPage fs i := by
            rw [newPageCache_data _ hf.lt, hf.data, hli]
          refine ⟨hs.fetch hframe (fun _ => hf.tree) hf.page hnone hdata, ?_⟩
          rintro _ ⟨⟩
          exact ⟨hdata.trans hat.symm, by rw [getElem?_insertPage, if_pos rfl]⟩

/-- The page a round of the loop of `write` copies into has the bytes of the file. -/
theorem writePage_intact (ho : Owns R fs ino.inodeOnDisk) (hs : ino.Sane fs)
    (hinline : ino.inodeOnDisk.hasInlineData = false) {i : ℕ}
    {current current' : Option Ext4Extent} {p : Page} (hi : i + 1 < 2 ^ 32)
    (hfollow : ino.inodeOnDisk.Follows fs i current)
    (h : ino.writePage fs i current = some (p, current', ino', fs')) :
    ino.Intact fs ino' fs' ∧ p.data = ino.pageAt fs i ∧
      ino'.inodeOnDisk.Follows fs' (i + 1) current' := by
  unfold writePage at h
  split at h
  · rename_i hpage
    cases h
    exact ⟨.refl hs, by rw [pageAt, hpage], hfollow.mono (Nat.le_succ _)⟩
  · rename_i hnone
    have hat : ino.pageAt fs i = ino.inodeOnDisk.diskPage fs i := by rw [pageAt, hnone]
    have hli : (UInt32.ofNat i).toNat = i := UInt32.toNat_ofNat_of_lt' (Nat.lt_of_succ_lt hi)
    rw [logicalBlockOf_eq ho.sound.blockSize] at h
    dsimp only at h
    split at h
    · rename_i e hreuse
      cases h
      have he := Ext4InodeDisk.Follows.reusable (hli.symm ▸ hfollow) hreuse
      have hdata : (newPageCache fs (fsBlockIdOf e (UInt32.ofNat i))).data =
          ino.inodeOnDisk.diskPage fs i := by
        rw [newPageCache_data fs (Ext4InodeDisk.fsBlockIdOf_lt ho hinline he),
          Ext4InodeDisk.block_of_lookup hinline he, hli]
      exact ⟨hs.fetchClean hnone hdata, hdata.trans hat.symm, hfollow.mono (Nat.le_succ _)⟩
    · split at h
      · cases h
      · rename_i e d fs₁ hl
        cases h
        have hf := Ext4InodeDisk.lookupOrCreateExtent_contents ho hinline (hs.tree hinline)
          (by rw [hli]; exact hi) hl
        have hdata : (newPageCache fs' (fsBlockIdOf e (UInt32.ofNat i))).data =
            ino.inodeOnDisk.diskPage fs i := by
          rw [newPageCache_data _ hf.lt, hf.data, hli]
        have hnext := hf.follows
        rw [hli] at hnext
        exact ⟨hs.fetch (lookupOrCreateExtent_frame hl) (fun _ => hf.tree) hf.page hnone hdata,
          hdata.trans hat.symm, hnext⟩

/-! ## Putting bytes into pages -/

/-- `buf` was put at position `start` of the file, in the cache, and nothing else has changed. -/
structure Overwritten (ino : Ext4Inode) (fs : Ext4FileSystem) (ino' : Ext4Inode)
    (fs' : Ext4FileSystem) (start : ℕ) (buf : List (BitVec 8)) : Prop where
  sane : ino'.Sane fs'
  size : ino'.getSize = ino.getSize
  links : ino'.inodeOnDisk.linksCount = ino.inodeOnDisk.linksCount
  disk : ∀ i < 2 ^ 32, ∀ j < pageSize,
    ino'.inodeOnDisk.diskPage fs' i j = ino.inodeOnDisk.diskPage fs i j
  inside : ∀ k (hk : k < buf.length), ino'.byteAt fs' (start + k) = buf[k]
  outside : ∀ k, k / pageSize < 2 ^ 32 → k < start ∨ start + buf.length ≤ k →
    ino'.byteAt fs' k = ino.byteAt fs k

variable {start : ℕ}

theorem Intact.overwritten (h : ino.Intact fs ino' fs') (start : ℕ) :
    ino.Overwritten fs ino' fs' start [] where
  sane := h.sane
  size := h.kept.size
  links := h.links
  disk := fun i _ j _ => by rw [h.disk]
  inside := fun k hk => absurd hk (Nat.not_lt_zero k)
  outside := fun k _ _ => h.byteAt k

/-- Bytes put one behind the other. -/
theorem Overwritten.append (h : ino.Overwritten fs ino' fs' start buf)
    (h' : ino'.Overwritten fs' ino'' fs'' (start + buf.length) bs)
    (hend : (start + buf.length) / pageSize < 2 ^ 32) :
    ino.Overwritten fs ino'' fs'' start (buf ++ bs) where
  sane := h'.sane
  size := h'.size.trans h.size
  links := h'.links.trans h.links
  disk := fun i hi j hj => (h'.disk i hi j hj).trans (h.disk i hi j hj)
  inside := fun k hk => by
    by_cases hlt : k < buf.length
    · have hdiv : (start + k) / pageSize ≤ (start + buf.length) / pageSize :=
        Nat.div_le_div_right (by omega)
      rw [List.getElem_append_left hlt, h'.outside _ (by omega) (Or.inl (by omega)), h.inside k hlt]
    · rw [List.length_append] at hk
      have hin := h'.inside (k - buf.length) (by omega)
      rw [show start + buf.length + (k - buf.length) = start + k by omega] at hin
      rw [List.getElem_append_right (by omega), hin]
  outside := fun k hk hout => by
    rw [List.length_append] at hout
    rw [h'.outside k hk (by omega), h.outside k hk (by omega)]

theorem Intact.then_overwritten (h : ino.Intact fs ino' fs')
    (h' : ino'.Overwritten fs' ino'' fs'' start buf) : ino.Overwritten fs ino'' fs'' start buf where
  sane := h'.sane
  size := h'.size.trans h.kept.size
  links := h'.links.trans h.links
  disk := fun i hi j hj => (h'.disk i hi j hj).trans (by rw [h.disk])
  inside := h'.inside
  outside := fun k hk hout => (h'.outside k hk hout).trans (h.byteAt k)

/-- Bytes copied into one page. -/
theorem Sane.copyIn (hs : ino.Sane fs) {i : ℕ} {p : Page} (hp : p.data = ino.pageAt fs i)
    (hfit : off + bs.length ≤ pageSize) :
    ino.Overwritten fs (ino.insertPage i (p.copyIn off bs)) fs (i * pageSize + off) bs := by
  have hbyte : ∀ k, (ino.insertPage i (p.copyIn off bs)).byteAt fs k =
      if i = k / pageSize then (p.copyIn off bs).data (k % pageSize) else ino.byteAt fs k := by
    intro k
    rw [byteAt, pageAt_insertPage]
    split <;> rfl
  refine ⟨⟨hs.seals, hs.size, hs.flags, hs.tree, ?_⟩, rfl, rfl, fun _ _ _ _ => rfl, ?_, ?_⟩
  · intro k hk q hq hclean j hj
    rw [getElem?_insertPage] at hq
    split at hq
    · cases hq
      cases hclean
    · exact hs.clean k hk q hq hclean j hj
  · intro k hk
    have hdiv : i = (i * pageSize + off + k) / pageSize := by
      unfold pageSize at hfit ⊢
      omega
    have hmod : (i * pageSize + off + k) % pageSize = off + k := by
      unfold pageSize at hfit ⊢
      omega
    rw [hbyte, if_pos hdiv, hmod, copyIn_data p hk]
  · intro k _ hout
    rw [hbyte]
    split
    · rename_i hik
      have hpos : k = i * pageSize + k % pageSize := by
        rw [hik]
        exact (Nat.div_add_mod' k pageSize).symm
      have hsame : (p.copyIn off bs).data (k % pageSize) = p.data (k % pageSize) := by
        unfold Page.copyIn
        dsimp only
        split
        · rw [List.getElem?_eq_none (by omega), Option.getD_none]
        · rfl
      rw [hsame, hp, hik]
      rfl
    · rfl

/-- **The loop over pages** puts the bytes one behind the other. -/
theorem writeLoop_contents {fuel i pageOffset : ℕ} {current : Option Ext4Extent}
    (ho : Owns R fs ino.inodeOnDisk) (hs : ino.Sane fs)
    (hinline : ino.inodeOnDisk.hasInlineData = false)
    (hfollow : ino.inodeOnDisk.Follows fs i current) (hoff : pageOffset < pageSize)
    (hend : i * pageSize + pageOffset + buf.length < 2 ^ 32) (hfuel : buf.length ≤ fuel)
    (h : writeLoop fuel i pageOffset current buf ino fs = some (ino', fs')) :
    ino.Overwritten fs ino' fs' (i * pageSize + pageOffset) buf := by
  have hnil : ∀ {ino : Ext4Inode} {fs : Ext4FileSystem} {start : ℕ}, ino.Sane fs →
      buf.length = 0 → ino.Overwritten fs ino fs start buf := by
    intro ino fs start hs hlen
    rw [List.eq_nil_of_length_eq_zero hlen]
    exact (Intact.refl hs).overwritten start
  induction fuel generalizing i pageOffset current buf ino fs with
  | zero =>
    cases h
    exact hnil hs (by omega)
  | succ fuel ih =>
    unfold writeLoop at h
    split at h
    · rename_i hlen
      cases h
      exact hnil hs hlen
    · split at h
      · cases h
      · rename_i hne p current' ino₁ fs₁ hpage
        dsimp only at h
        have hi : i + 1 < 2 ^ 32 := by
          unfold pageSize at hend
          omega
        generalize hn : min buf.length (pageSize - pageOffset) = n at h
        have htake : (buf.take n).length = n := by
          rw [List.length_take]
          omega
        have hdrop : (buf.drop n).length = buf.length - n := List.length_drop ..
        obtain ⟨hintact, hdata, hnext⟩ := writePage_intact ho hs hinline hi hfollow hpage
        obtain ⟨hstep, hinline₁⟩ := ho.writePage hinline hpage
        -- this page, then the rest of the bytes
        have hcopy := @Sane.copyIn ino₁ fs₁ pageOffset (buf.take n) hintact.sane i p
          (hdata.trans (hintact.page i).symm) (by rw [htake]; omega)
        have hfirst := hintact.then_overwritten hcopy
        by_cases hall : n = buf.length
        · have hrest : buf.drop n = [] := List.drop_of_length_le hall.ge
          rw [hall, List.take_length] at hfirst
          rw [hrest] at h
          have heq : (ino₁.insertPage i (p.copyIn pageOffset (buf.take n)), fs₁) = (ino', fs') := by
            cases fuel with
            | zero => exact Option.some.inj h
            | succ fuel => exact Option.some.inj h
          cases heq
          rw [hall, List.take_length]
          exact hfirst
        · have hpos : (i + 1) * pageSize + 0 = i * pageSize + pageOffset + n := by
            unfold pageSize at hn hoff ⊢
            omega
          have hrest := ih (by exact hstep.owns) hcopy.sane hinline₁ hnext (by decide)
            (by rw [hpos, hdrop]; omega) (by omega) h
            (fun hs hlen => by
              rw [List.eq_nil_of_length_eq_zero hlen]
              exact (Intact.refl hs).overwritten _)
          rw [hpos] at hrest
          rw [← List.take_append_drop n buf]
          refine hfirst.append ?_ ?_
          · rw [htake]
            exact hrest
          · rw [htake]
            exact lt_of_le_of_lt (Nat.div_le_self _ _) (by omega)

/-! ## The size -/

theorem ZeroFrom.byteAt {n k : ℕ} (h : ino.ZeroFrom fs n) (hk : k / pageSize < 2 ^ 32)
    (hn : n ≤ k) : ino.byteAt fs k = 0 :=
  (h _ hk _ (Nat.mod_lt _ (by decide)) (by rwa [Nat.div_add_mod'])).1

theorem byteAt_page (i : ℕ) {j : ℕ} (hj : j < pageSize) :
    ino.byteAt fs (i * pageSize + j) = ino.pageAt fs i j := by
  have hdiv : (i * pageSize + j) / pageSize = i := by
    unfold pageSize at hj ⊢
    omega
  have hmod : (i * pageSize + j) % pageSize = j := by
    unfold pageSize at hj ⊢
    omega
  rw [byteAt, hdiv, hmod]

theorem page_div (i : ℕ) {j : ℕ} (hj : j < pageSize) : (i * pageSize + j) / pageSize = i := by
  unfold pageSize at hj ⊢
  omega

/-- Behind the bytes and behind the old end there are still zeros. -/
theorem Overwritten.zeroFrom {n : ℕ} (h : ino.Overwritten fs ino' fs' start buf)
    (hz : ino.ZeroFrom fs n) : ino'.ZeroFrom fs' (max n (start + buf.length)) := by
  intro i hi j hj hn
  refine ⟨?_, (h.disk i hi j hj).trans (hz i hi j hj (le_trans (le_max_left _ _) hn)).2⟩
  have hdiv := page_div i hj
  rw [← byteAt_page i hj, h.outside _ (by rw [hdiv]; exact hi)
    (Or.inr (le_trans (le_max_right _ _) hn))]
  exact hz.byteAt (by rw [hdiv]; exact hi) (le_trans (le_max_left _ _) hn)

/-- A sane inode whose size is set. -/
theorem Sane.setSize (h : ino.Sane fs) {n : ℕ} (hn : n < 2 ^ 32) : (ino.setSize n).Sane fs where
  seals := h.seals
  size := hn
  flags := h.flags
  tree := fun hinline => ⟨(h.tree hinline).leaf, (h.tree hinline).steady⟩
  clean := h.clean

/-- **The file holds these bytes**, and zeros behind them. -/
structure Holds (ino : Ext4Inode) (fs : Ext4FileSystem) (l : List (BitVec 8)) : Prop where
  sane : ino.Sane fs
  zero : ino.ZeroFrom fs ino.getSize
  contents : ino.fileBytes fs = l

variable {l : List (BitVec 8)}

theorem Holds.length (h : ino.Holds fs l) : l.length = ino.getSize := by
  rw [← h.contents, fileBytes, Contents.length_tabulate]

theorem Intact.holds (h : ino.Intact fs ino' fs') (hl : ino.Holds fs l) : ino'.Holds fs' l where
  sane := h.sane
  zero := by
    have hsize : ino'.getSize = ino.getSize := h.kept.size
    rw [hsize]
    exact h.zeroFrom hl.zero
  contents := h.contents.trans hl.contents

/-- Bytes put into the cache, and a size that reaches as far as they do. -/
theorem Overwritten.holds (h : ino.Overwritten fs ino' fs' start buf) (hl : ino.Holds fs l)
    (hend : start + buf.length < 2 ^ 32) :
    (if ino'.getSize < start + buf.length then ino'.setSize (start + buf.length) else ino').Holds
      fs' (Contents.write 0 start buf l) := by
  set ino₂ := if ino'.getSize < start + buf.length then ino'.setSize (start + buf.length) else ino'
    with hino₂
  have hsize₂ : ino₂.getSize = max ino.getSize (start + buf.length) := by
    rw [← h.size]
    exact size_grow ino' (start + buf.length)
  have hlt := hl.sane.size
  have hsane : ino₂.Sane fs' := by
    rw [hino₂]
    split
    · exact h.sane.setSize hend
    · exact h.sane
  -- the size plays no part in what the pages are
  have hbyte : ∀ k, ino₂.byteAt fs' k = ino'.byteAt fs' k := fun k => by
    rw [hino₂]
    split <;> rfl
  have hdisk : ∀ i j, ino₂.inodeOnDisk.diskPage fs' i j = ino'.inodeOnDisk.diskPage fs' i j :=
    fun i j => by
      rw [hino₂]
      split <;> rfl
  have hsmall : ∀ k < 2 ^ 32, k / pageSize < 2 ^ 32 := fun k hk =>
    lt_of_le_of_lt (Nat.div_le_self _ _) hk
  refine ⟨hsane, ?_, ?_⟩
  · rw [hsize₂]
    intro i hi j hj hn
    have hz := h.zeroFrom hl.zero i hi j hj hn
    rw [← byteAt_page i hj, hbyte, byteAt_page i hj, hdisk]
    exact hz
  · rw [fileBytes, hsize₂, ← hl.contents, fileBytes]
    refine Contents.write_tabulate (fun k hk hsize => ?_) (fun k hk => ?_) (fun k hk hout => ?_)
    · exact hl.zero.byteAt (hsmall k (by omega)) hsize
    · rw [hbyte, h.inside k hk]
    · rw [hbyte, h.outside k (hsmall k (by omega)) hout]

/-- Writing page by page. -/
theorem writeExtentTree_holds (ho : Owns R fs ino.inodeOnDisk) (hl : ino.Holds fs l)
    (hinline : ino.inodeOnDisk.hasInlineData = false) (hend : off + buf.length < 2 ^ 32) {n : ℕ}
    (h : ino.writeExtentTree fs off buf = some (n, ino', fs')) :
    ino'.Holds fs' (Contents.write 0 off buf l) ∧
      ino'.inodeOnDisk.linksCount = ino.inodeOnDisk.linksCount := by
  unfold writeExtentTree at h
  split at h
  · cases h
  · rename_i ino₁ fs₁ hloop
    have hpos : off / pageSize * pageSize + off % pageSize = off := Nat.div_add_mod' ..
    have hover := writeLoop_contents ho hl.sane hinline (.none _ _ _)
      (Nat.mod_lt off (by decide)) (by rw [hpos]; exact hend) le_rfl hloop
    rw [hpos] at hover
    have husize : usize (off + buf.length) = off + buf.length := Nat.mod_eq_of_lt (by omega)
    dsimp only at h
    rw [husize] at h
    cases h
    refine ⟨hover.holds hl hend, ?_⟩
    rw [← hover.links]
    split <;> rfl

/-! ## Conversion -/

/-- The pages of a root with one extent over a block of zeros. -/
theorem diskPage_single {d : Ext4InodeDisk} {e : Ext4Extent}
    (hinline : d.hasInlineData = false) (hdepth : (extentHeader d.block).depth = 0)
    (hext : extents d.block = [e]) (hlen : e.len = 1)
    (hzero : fs.block e.physicalStartBlock = fun _ => 0) (i : ℕ) :
    d.diskPage fs i = fun _ => 0 := by
  cases hx : d.lookupExtent fs (UInt32.ofNat i) with
  | none => exact Ext4InodeDisk.diskPage_of_none hinline hx
  | some e' =>
    obtain ⟨hmem, hcov⟩ := Ext4InodeDisk.lookupExtent_live hinline hx
    rw [Ext4InodeDisk.liveExtents_leaf hinline hdepth, hext, List.mem_singleton] at hmem
    rw [hmem] at hx hcov
    have hbounds := Ext4Extent.covers_bounds hcov
    rw [hlen, UInt16.toNat_one] at hbounds
    have hid : fsBlockIdOf e (UInt32.ofNat i) = e.physicalStartBlock := by
      rw [fsBlockIdOf]
      omega
    rw [Ext4InodeDisk.diskPage_of_physicalAt hinline
      (Ext4InodeDisk.physicalAt_eq_some.mpr ⟨e, hx, hid⟩), hzero]

/-- The page of a small file, fetched for the conversion: what is put into the cache for it are
the bytes it has. -/
theorem convertPage_contents (ho : Owns R fs ino.inodeOnDisk) (hl : ino.Holds fs l)
    (hsmall : ino.getSize ≤ 60) {newBlock : ℕ} (hR : newBlock ∈ R) (hb : newBlock ∉ fs.bitmaps)
    (hlt : newBlock < maxFsBlockId) (hzero : fs.block newBlock = fun _ => 0)
    (h : ino.convertPage fs newBlock = some (ino', fs')) :
    fs'.block newBlock = (fun _ => 0) ∧ ino'.getSize = ino.getSize ∧ ino'.seals = ino.seals ∧
      ino'.inodeOnDisk.linksCount = ino.inodeOnDisk.linksCount ∧
      (∀ i < 2 ^ 32, ∀ p, ino'.pages[i]? = some p → ∀ j < pageSize, p.data j = ino.pageAt fs i j) ∧
      (∀ i < 2 ^ 32, ∀ p, ino'.pages[i]? = some p → p.dirty = false → ∀ j < pageSize, p.data j = 0) ∧
      ∀ i < 2 ^ 32, ino'.pages[i]? = none → ∀ j < pageSize, ino.pageAt fs i j = 0 := by
  unfold convertPage at h
  split at h
  · rename_i hpos
    split at h
    · rename_i page ino₁ fs₁ hget
      obtain ⟨hintact, hpage⟩ := getPageCache_intact ho hl.sane hget
      obtain ⟨hdata, hcached⟩ := hpage page rfl
      have hblock : fs₁.block newBlock = fun _ => 0 := by
        rw [(ho.getPageCache hget).1.keeps.block newBlock hR hb, hzero]
      have hnew : (newPageCache fs₁ newBlock).data = fun _ => 0 := by
        rw [newPageCache_data _ hlt, hblock]
      -- the first page has nothing behind the 60 bytes
      have hfirst : ∀ j < pageSize, (if j < 60 then page.data j else (newPageCache fs₁ newBlock).data j) =
          ino.pageAt fs 0 j := by
        intro j hj
        split
        · rw [hdata]
        · rw [hnew, (hl.zero 0 (by decide) j hj (by omega)).1]
      have hcase : ∀ {i : ℕ} {q : Page}, i ≠ 0 → (ino₁.insertPage 0 ⟨fun i => if i < 60 then page.data i
          else (newPageCache fs₁ newBlock).data i, true⟩).pages[i]? = some q →
          ino₁.pages[i]? = some q := by
        intro i q hi hq
        rwa [getElem?_insertPage, if_neg (Ne.symm hi)] at hq
      cases h
      refine ⟨hblock, hintact.kept.size, hintact.seals, hintact.links, ?_, ?_, ?_⟩
      · intro i hi q hq j hj
        by_cases hi0 : i = 0
        · subst hi0
          rw [getElem?_insertPage, if_pos rfl] at hq
          cases hq
          exact hfirst j hj
        · rw [← hintact.page, pageAt, hcase hi0 hq]
      · intro i hi q hq hclean j hj
        by_cases hi0 : i = 0
        · subst hi0
          rw [getElem?_insertPage, if_pos rfl] at hq
          cases hq
          cases hclean
        · rw [hintact.sane.clean i hi q (hcase hi0 hq) hclean j hj]
          exact (hintact.zeroFrom hl.zero i hi j hj (by unfold pageSize; omega)).2
      · intro i hi hnone j hj
        by_cases hi0 : i = 0
        · subst hi0
          rw [getElem?_insertPage, if_pos rfl] at hnone
          cases hnone
        · exact (hl.zero i hi j hj (by unfold pageSize; omega)).1
    · cases h
  · rename_i hnil
    cases h
    have hnil : ino.getSize = 0 := by omega
    refine ⟨hzero, rfl, rfl, rfl, fun i hi q hq j hj => by rw [pageAt, hq], ?_, ?_⟩
    · intro i hi q hq hclean j hj
      rw [hl.sane.clean i hi q hq hclean j hj]
      exact (hl.zero i hi j hj (by omega)).2
    · exact fun i hi _ j hj => (hl.zero i hi j hj (by omega)).1

/-- **The conversion changes no byte** of the file. -/
theorem convert_holds (ho : Owns R fs ino.inodeOnDisk) (hl : ino.Holds fs l)
    (hsmall : ino.getSize ≤ 60) (hoff : off < 2 ^ 32) (h : ino.convert fs off = some (ino', fs')) :
    ino'.Holds fs' l ∧ ino'.inodeOnDisk.linksCount = ino.inodeOnDisk.linksCount := by
  unfold convert at h
  split at h
  · cases h
  rename_i newBlock fs₁ halloc
  split at h
  · cases h
  rename_i ino₁ fs₂ hpage
  have hf := ho.sound.allocOneBlock halloc
  obtain ⟨ho₁, -, howned, -⟩ := ho.fresh hf
  have hspare := ho.spare_of_fresh hf
  have hlt : newBlock < 64 * 32768 := hf.lt (by simp)
  have hsize : fs₁.blockSize = fs.blockSize := hf.sound.blockSize.trans ho.sound.blockSize.symm
  have hkept : ∀ x ∈ ino.inodeOnDisk.owned fs, fs₁.block x = fs.block x := fun x hx =>
    hf.block x (ho.not_bitmap hx) (hf.not_mem_of_used (ho.used x hx))
  -- allocation leaves the file alone
  have hl₁ : ino.Holds fs₁ l := by
    have hdisk := Ext4InodeDisk.diskPage_of_kept hsize hkept
    have hat : ∀ i, ino.pageAt fs₁ i = ino.pageAt fs i := fun i => by
      unfold pageAt
      split
      · rfl
      · exact hdisk i
    refine Intact.holds ⟨.refl _, ⟨hl.sane.seals, hl.sane.size, hl.sane.flags, fun hinline => ?_,
      fun i hi p hp hclean j hj => ?_⟩, rfl, rfl, rfl, hat, hdisk⟩ hl
    · exact (hl.sane.tree hinline).of_kept hinline hsize fun x hx => hkept x (Owns.mem_nodes hx)
    · rw [hdisk]
      exact hl.sane.clean i hi p hp hclean j hj
  obtain ⟨hzero, hsize₁, hseals, hlinks, hcached, hclean, huncached⟩ :=
    convertPage_contents (ho₁.set_aside hspare) hl₁ hsmall (Or.inr (by simp))
      (fun hb => hspare.apart newBlock (by simp) (ho₁.bitmaps newBlock hb))
      (by unfold maxFsBlockId; omega) (hf.zero newBlock (by simp)) hpage
  dsimp only at h
  obtain ⟨hheader, hext⟩ := extents_single ino₁.inodeOnDisk.block
    (Ext4Extent.new (UInt32.ofNat off / UInt32.ofNat pageSize) 1 newBlock)
  have hphys := Ext4Extent.physicalStartBlock_new (UInt32.ofNat off / UInt32.ofNat pageSize) 1
    (show newBlock < 2 ^ 48 by omega)
  set root := (Ext4Extent.new (UInt32.ofNat off / UInt32.ofNat pageSize) 1 newBlock).write
    ({ Ext4ExtentHeader.newRoot with entries := 1 }.write ino₁.inodeOnDisk.block) 12 with hroot
  cases h
  set d : Ext4InodeDisk := { ino₁.inodeOnDisk with
    inlineDataFl := false, extentsFl := true, block := root } with hd
  have hdepth : (extentHeader d.block).depth = 0 := by
    show (extentHeader root).depth = 0
    rw [hheader]
    rfl
  -- the new tree leads to zeros everywhere
  have hdisk : ∀ i, d.diskPage fs' i = fun _ => 0 :=
    diskPage_single rfl hdepth hext rfl (by rw [hphys]; exact hzero)
  have hat : ∀ i < 2 ^ 32, ∀ j < pageSize,
      ({ ino₁ with inodeOnDisk := d } : Ext4Inode).pageAt fs' i j = ino.pageAt fs₁ i j := by
    intro i hi j hj
    cases hp : ino₁.pages[i]? with
    | none =>
      rw [huncached i hi hp j hj]
      show (Ext4Inode.pageAt ⟨_, d, ino₁.pages, _⟩ fs' i) j = 0
      rw [pageAt, hp]
      exact congrFun (hdisk i) j
    | some q =>
      rw [← hcached i hi q hp j hj]
      show (Ext4Inode.pageAt ⟨_, d, ino₁.pages, _⟩ fs' i) j = q.data j
      rw [pageAt, hp]
  have hord : Ext4Extent.Ordered (extents d.block) := by
    have hl32 : (UInt32.ofNat off / UInt32.ofNat pageSize).toNat + 1 < 2 ^ 32 := by
      rw [UInt32.toNat_div, UInt32.toNat_ofNat_of_lt' hoff]
      show off / 4096 + 1 < 2 ^ 32
      omega
    show Ext4Extent.Ordered (extents root)
    rw [hext]
    exact ⟨List.pairwise_singleton _ _, by simp [Ext4Extent.new],
      by simpa [Ext4Extent.new, Ext4Extent.stop, Ext4Extent.first] using hl32⟩
  have hsz : ino₁.getSize = ino.getSize := hsize₁
  refine ⟨⟨⟨?_, ?_, rfl, fun _ => .of_leaf hdepth hord ?_, ?_⟩, ?_, ?_⟩, hlinks⟩
  · show ino₁.seals &&& 2 = 0 ∧ ino₁.seals &&& 4 = 0
    rw [hseals]
    exact hl.sane.seals
  · show ino₁.getSize < 2 ^ 32
    rw [hsz]
    exact hl.sane.size
  · show (extentHeader root).max = 4
    rw [hheader]
    rfl
  · intro i hi q hq hc j hj
    exact (hclean i hi q hq hc j hj).trans (congrFun (hdisk i) j).symm
  · intro i hi j hj hn
    have hn : ino.getSize ≤ i * pageSize + j := hsz.symm.le.trans hn
    exact ⟨(hat i hi j hj).trans (hl₁.zero i hi j hj hn).1, congrFun (hdisk i) j⟩
  · show Contents.tabulate _ ino₁.getSize = l
    rw [hsz, ← hl₁.contents]
    refine List.map_congr_left fun k hk => ?_
    rw [List.mem_range] at hk
    exact hat _ (lt_of_le_of_lt (Nat.div_le_self _ _) (hk.trans hl.sane.size)) _
      (Nat.mod_lt _ (by decide))

/-- **`write` puts the bytes over the contents.** -/
theorem write_holds (ho : Owns R fs ino.inodeOnDisk) (hl : ino.Holds fs l)
    (hend : off + buf.length < 2 ^ 32) {n : ℕ} (h : ino.write fs off buf = some (n, ino', fs')) :
    n = buf.length ∧ ino'.Holds fs' (Contents.write 0 off buf l) ∧
      ino'.inodeOnDisk.linksCount = ino.inodeOnDisk.linksCount := by
  refine ⟨(write_spec h).1, ?_⟩
  have husize : usize (off + buf.length) = off + buf.length := Nat.mod_eq_of_lt (by omega)
  unfold write at h
  dsimp only at h
  rw [husize] at h
  split at h
  · rename_i hsmall
    obtain ⟨⟨page?, ino₁, fs₁⟩, hget, h⟩ := Option.bind_eq_some_iff.mp h
    obtain ⟨page, rfl, h⟩ := Option.bind_eq_some_iff.mp h
    obtain ⟨hintact, hpage⟩ := getPageCache_intact ho hl.sane hget
    obtain ⟨hdata, -⟩ := hpage page rfl
    rw [if_neg (by omega)] at h
    cases h
    have hcopy := @Sane.copyIn _ _ off buf hintact.sane 0 page
      (hdata.trans (hintact.page 0).symm) (by unfold pageSize; omega)
    rw [Nat.zero_mul, Nat.zero_add] at hcopy
    have hover := hintact.then_overwritten hcopy
    refine ⟨hover.holds hl hend, ?_⟩
    rw [← hover.links]
    split <;> rfl
  · split at h
    · rename_i hsmall
      obtain ⟨⟨ino₁, fs₁⟩, hconv, h⟩ := Option.bind_eq_some_iff.mp h
      obtain ⟨hstep, hinline⟩ := ho.convert hconv
      obtain ⟨hl₁, hlinks⟩ := convert_holds ho hl hsmall (by omega) hconv
      obtain ⟨hl₂, hlinks'⟩ := writeExtentTree_holds hstep.owns hl₁ hinline hend h
      exact ⟨hl₂, hlinks'.trans hlinks⟩
    · rename_i hlarge
      have hinline : ino.inodeOnDisk.hasInlineData = false := by
        by_contra hflag
        rw [Bool.not_eq_false] at hflag
        exact hlarge (ho.ordered.inlineSize hflag)
      exact writeExtentTree_holds ho hl hinline hend h

end Ext4Inode

end QuackOS.Ext4
