import QuackOS.Ext4.FileStore

/-!
# Inodes in memory and records in the table

A file that is not in memory is its record in the inode table.  Calls on the files in memory leave
the records of the others alone; only the end of an inode in memory writes one.

* `inodeTable_write`, `inodeTable_drop` — the table after a call;
* `Ext4Inode.read_dirty` — a read makes no page dirty;
* `World.Flushable` — no file has a dirty page without a block: reads and drops keep this.
-/

namespace QuackOS.Ext4

open Buffer

variable {fs fs' : Ext4FileSystem} {ino ino' : Ext4Inode}

/-! ## The inode table -/

theorem Ext4FileSystem.inodeTable_allocOneBlock {n : ℕ} (h : fs.allocOneBlock = some (n, fs')) :
    fs'.inodeTable = fs.inodeTable := by
  obtain ⟨i, -, hi⟩ := List.exists_of_findSome?_eq_some h
  split at hi
  · cases hi
  · split at hi
    · cases hi
    · cases hi
      rfl

namespace Ext4InodeDisk

variable {d d' : Ext4InodeDisk} {l : UInt32}

theorem inodeTable_splitLeafBlock {root root' : Buffer}
    (h : splitLeafBlock root fs = some (root', fs')) : fs'.inodeTable = fs.inodeTable := by
  obtain ⟨⟨left, fs₁⟩, hleft, h⟩ := Option.bind_eq_some_iff.mp h
  obtain ⟨⟨right, fs₂⟩, hright, h⟩ := Option.bind_eq_some_iff.mp h
  obtain ⟨leftFirst, -, h⟩ := Option.bind_eq_some_iff.mp h
  obtain ⟨rightFirst, -, h⟩ := Option.bind_eq_some_iff.mp h
  cases h
  exact (Ext4FileSystem.inodeTable_allocOneBlock hright).trans
    (Ext4FileSystem.inodeTable_allocOneBlock hleft)

theorem inodeTable_insertExtent {p : ℕ} {n : UInt32} {r : Except String Unit}
    (h : d.insertExtent l p n fs = some (r, d', fs')) : fs'.inodeTable = fs.inodeTable := by
  unfold insertExtent at h
  dsimp only at h
  split at h
  · obtain ⟨_, -, heq⟩ := Option.map_eq_some_iff.mp h
    cases heq
    rfl
  split at h
  · cases h
    rfl
  split at h
  · split at h
    · cases h
    · rename_i root fs₁ hsplit
      obtain ⟨_, -, heq⟩ := Option.map_eq_some_iff.mp h
      cases heq
      exact inodeTable_splitLeafBlock hsplit
  · cases h
    rfl

theorem inodeTable_lookupOrCreateExtent {e : Ext4Extent}
    (h : d.lookupOrCreateExtent fs l = some (e, d', fs')) : fs'.inodeTable = fs.inodeTable := by
  unfold lookupOrCreateExtent at h
  split at h
  · cases h
    rfl
  split at h
  · cases h
  · rename_i n fs₁ halloc
    dsimp only at h
    split at h
    · rename_i d₁ fs₂ hinsert
      cases h
      exact (inodeTable_insertExtent hinsert).trans
        (Ext4FileSystem.inodeTable_allocOneBlock halloc)
    · cases h

end Ext4InodeDisk

namespace Ext4Inode

open Ext4InodeDisk

theorem inodeTable_getPageCache {i : ℕ} {p : Option Page}
    (h : ino.getPageCache fs i = some (p, ino', fs')) : fs'.inodeTable = fs.inodeTable := by
  unfold getPageCache at h
  split at h
  · cases h
    rfl
  split at h
  · cases h
    rfl
  split at h
  · cases h
    rfl
  dsimp only at h
  split at h
  · cases h
  · rename_i e d fs₁ hcreate
    cases h
    exact inodeTable_lookupOrCreateExtent hcreate

theorem inodeTable_writePage {i : ℕ} {current current' : Option Ext4Extent} {p : Page}
    (h : ino.writePage fs i current = some (p, current', ino', fs')) :
    fs'.inodeTable = fs.inodeTable := by
  unfold writePage at h
  split at h
  · cases h
    rfl
  dsimp only at h
  split at h
  · cases h
    rfl
  split at h
  · cases h
  · rename_i e d fs₁ hcreate
    cases h
    exact inodeTable_lookupOrCreateExtent hcreate

theorem inodeTable_writeLoop {fuel i off : ℕ} {current : Option Ext4Extent}
    {buf : List (BitVec 8)} (h : writeLoop fuel i off current buf ino fs = some (ino', fs')) :
    fs'.inodeTable = fs.inodeTable := by
  induction fuel generalizing i off current buf ino fs with
  | zero =>
    cases h
    rfl
  | succ fuel ih =>
    unfold writeLoop at h
    split at h
    · cases h
      rfl
    split at h
    · cases h
    · rename_i p current' ino₁ fs₁ hpage
      exact (ih h).trans (inodeTable_writePage hpage)

theorem inodeTable_writeExtentTree {off n : ℕ} {buf : List (BitVec 8)}
    (h : ino.writeExtentTree fs off buf = some (n, ino', fs')) :
    fs'.inodeTable = fs.inodeTable := by
  unfold writeExtentTree at h
  split at h
  · cases h
  · rename_i ino₁ fs₁ hloop
    cases h
    exact inodeTable_writeLoop hloop

theorem inodeTable_convert {off : ℕ} (h : ino.convert fs off = some (ino', fs')) :
    fs'.inodeTable = fs.inodeTable := by
  unfold convert at h
  split at h
  · cases h
  rename_i newBlock fs₁ halloc
  split at h
  · cases h
  rename_i ino₁ fs₂ hpage
  cases h
  refine Eq.trans ?_ (Ext4FileSystem.inodeTable_allocOneBlock halloc)
  unfold convertPage at hpage
  split at hpage
  · split at hpage
    · rename_i p ino₂ fs₃ hget
      cases hpage
      exact inodeTable_getPageCache hget
    · cases hpage
  · cases hpage
    rfl

/-- **A write leaves the inode table alone.** -/
theorem inodeTable_write {off n : ℕ} {buf : List (BitVec 8)}
    (h : ino.write fs off buf = some (n, ino', fs')) : fs'.inodeTable = fs.inodeTable := by
  unfold write at h
  dsimp only at h
  split at h
  · obtain ⟨⟨page, ino₁, fs₁⟩, hget, h⟩ := Option.bind_eq_some_iff.mp h
    obtain ⟨p, -, h⟩ := Option.bind_eq_some_iff.mp h
    split at h
    · cases h
    · cases h
      exact inodeTable_getPageCache hget
  split at h
  · obtain ⟨⟨ino₁, fs₁⟩, hconvert, h⟩ := Option.bind_eq_some_iff.mp h
    exact (inodeTable_writeExtentTree h).trans (inodeTable_convert hconvert)
  · exact inodeTable_writeExtentTree h

theorem inodeTable_flushPage (d : Ext4InodeDisk) (i : ℕ) (p : Page) :
    (flushPage d fs i p).inodeTable = fs.inodeTable := by
  unfold flushPage
  dsimp only
  split
  · split <;> rfl
  · rfl

/-- **An inode that leaves memory writes its own record** and no other. -/
theorem inodeTable_drop (hlinks : ino.inodeOnDisk.linksCount ≠ 0) (h : ino.drop fs = some fs')
    {n : ℕ} (hn : n ≠ ino.inodeNum) : fs'.inodeTable n = fs.inodeTable n := by
  rw [drop_eq, if_neg (by rwa [ino.droppedDisk_fields.2.2.2.1])] at h
  cases h
  have hfold : ∀ (ps : List (ℕ × Page)) (fs₀ : Ext4FileSystem),
      (ps.foldl (fun fs ip => flushPage ino.droppedDisk fs ip.1 ip.2) fs₀).inodeTable =
        fs₀.inodeTable := by
    intro ps
    induction ps with
    | nil => exact fun _ => rfl
    | cons ip ps ih =>
      intro fs₀
      rw [List.foldl_cons, ih, inodeTable_flushPage]
  unfold flushed
  dsimp only
  rw [Function.update_of_ne hn]
  split
  · exact congrFun (hfold _ _) n
  · rfl

/-! ## Dirty pages -/

theorem readPage_dirty {i : ℕ} {current current' : Option Ext4Extent} {q : Page}
    (h : ino.readPage fs i current = (q, current', ino')) {k : ℕ} {p : Page}
    (hp : ino'.pages[k]? = some p) (hdirty : p.dirty = true) : ino.pages[k]? = some p := by
  unfold readPage at h
  split at h
  · cases h
    exact hp
  · cases h
    rw [getElem?_insertPage] at hp
    split at hp
    · cases hp
      cases hdirty
    · exact hp

theorem readLoop_dirty {off n size fuel i o : ℕ} {current : Option Ext4Extent}
    {acc bs : List (BitVec 8)} (h : readLoop fs off n size fuel i o current ino acc = some (bs, ino'))
    {k : ℕ} {p : Page} (hp : ino'.pages[k]? = some p) (hdirty : p.dirty = true) :
    ino.pages[k]? = some p := by
  induction fuel generalizing i o current acc ino with
  | zero =>
    cases h
    exact hp
  | succ fuel ih =>
    unfold readLoop at h
    split at h
    · split at h
      · dsimp only at h
        split at h
        · cases h
        · cases h
          rw [getElem?_insertPage] at hp
          split at hp
          · cases hp
            cases hdirty
          · exact hp
      · generalize hread : ino.readPage fs i current = r at h
        obtain ⟨q, current', ino₁⟩ := r
        dsimp only at h
        split at h
        · cases h
          exact readPage_dirty hread hp hdirty
        · exact readPage_dirty hread (ih h) hdirty
    · cases h
      exact hp

/-- **A read makes no page dirty.** -/
theorem read_dirty {off n : ℕ} {bs : List (BitVec 8)} (h : ino.read fs off n = some (bs, ino'))
    {k : ℕ} {p : Page} (hp : ino'.pages[k]? = some p) (hdirty : p.dirty = true) :
    ino.pages[k]? = some p := by
  unfold Ext4Inode.read at h
  dsimp only at h
  split at h
  · cases h
    exact hp
  · exact readLoop_dirty h hp hdirty

theorem Flushable.read {off n : ℕ} {bs : List (BitVec 8)} (hf : Flushable fs ino)
    (h : ino.read fs off n = some (bs, ino')) : Flushable fs ino' := by
  have hdisk := read_inodeOnDisk h
  intro hinline x hx hlt
  obtain ⟨hp, hdirty⟩ := mem_dirtyPages.mp hx
  rw [hdisk] at hinline ⊢
  rw [getSize, hdisk] at hlt
  exact hf hinline x (mem_dirtyPages.mpr ⟨read_dirty h hp hdirty, hdirty⟩) hlt

theorem Flushable.of_kept {R : Set ℕ} (hf : Flushable fs ino) (ho : Owns R fs ino.inodeOnDisk)
    (hs : fs'.Sound) (hblock : ∀ x ∈ ino.inodeOnDisk.owned fs, fs'.block x = fs.block x) :
    Flushable fs' ino := by
  intro hinline x hx hlt
  have hsize : fs'.blockSize = fs.blockSize := hs.blockSize.trans ho.sound.blockSize.symm
  rw [(Ext4InodeDisk.tree_congr hsize fun y hy => hblock y (Owns.mem_nodes hy)).2.2 hinline]
  exact hf hinline x hx hlt

/-- An inode that was just loaded has no pages. -/
theorem flushable_loadInode (n : ℕ) : Flushable fs (loadInode fs n) := by
  intro _ x hx
  have hp := (mem_dirtyPages.mp hx).1
  rw [show (loadInode fs n).pages[x.1]? = none by simp [loadInode]] at hp
  cases hp

end Ext4Inode

/-! ## Files that can leave memory -/

namespace World

variable {w w' : World} {a : FileStore} {i : ℕ} {r : FileAnswer}

/-- Every file can be written back. -/
def Flushable (w : World) : Prop := ∀ i ino, w.files i = some ino → Ext4Inode.Flushable w.fs ino

theorem files_put (w : World) (i : ℕ) (o : Option Ext4Inode) (fs : Ext4FileSystem) (j : ℕ) :
    (w.put i o fs).files j = if j = i then o else w.files j := by
  rw [put]
  dsimp only
  by_cases hj : j = i
  · rw [hj, Function.update_self, if_pos rfl]
  · rw [Function.update_of_ne hj, if_neg hj]

theorem Flushable.read (hf : w.Flushable) {off n : ℕ}
    (h : w.serve (.read i off n) = some (r, w')) : w'.Flushable := by
  cases hi : w.files i with
  | none =>
    rw [serve_none hi] at h
    cases h
    exact hf
  | some ino =>
    simp only [serve, hi] at h
    obtain ⟨⟨bs, ino'⟩, hread, heq⟩ := Option.map_eq_some_iff.mp h
    cases heq
    intro j jno hj
    rw [files_put] at hj
    split at hj
    · cases hj
      exact (hf i ino hi).read hread
    · exact hf j jno hj

theorem Flushable.drop (hf : w.Flushable) (h : w.Stores a)
    (hd : w.serve (.drop i) = some (r, w')) : w'.Flushable := by
  cases hi : w.files i with
  | none =>
    rw [serve_none hi] at hd
    cases hd
    exact hf
  | some ino =>
    simp only [serve, hi] at hd
    obtain ⟨fs', hdrop, heq⟩ := Option.map_eq_some_iff.mp hd
    cases heq
    have hown := h.consistent.owns hi
    obtain ⟨hs, hkeeps⟩ : fs'.Sound ∧ Keeps (w.rest i) w.fs fs' := by
      by_cases hlinks : ino.inodeOnDisk.linksCount = 0
      · obtain ⟨hs, hk, -⟩ := hown.drop_unlinked hlinks hdrop
        exact ⟨hs, hk⟩
      · have hstep := hown.drop hlinks hdrop
        exact ⟨hstep.owns.sound, hstep.keeps⟩
    intro j jno hj
    rw [files_put] at hj
    split at hj
    · split at hj
      · cases hj
      · cases hj
        exact Ext4Inode.flushable_loadInode _
    · rename_i hji
      refine (hf j jno hj).of_kept (h.consistent.owns hj) hs fun x hx => ?_
      exact hkeeps.block x (Or.inr ⟨j, jno, hji, hj, hx⟩) (h.consistent.bitmaps j jno hj x hx)

/-! ## What lies beside the files -/

/-- Blocks beside the files: they are in use, and neither bitmaps nor of a file. -/
structure Guards (w : World) (R : Set ℕ) : Prop where
  used : ∀ x ∈ R, w.fs.used x = true
  bitmaps : ∀ x ∈ R, x ∉ w.fs.bitmaps
  files : ∀ i ino, w.files i = some ino → ∀ x ∈ ino.inodeOnDisk.owned w.fs, x ∉ R

/-- What lay beside the files still does, with the bytes it had. -/
def Carries (w w' : World) : Prop :=
  ∀ R, w.Guards R → w'.Guards R ∧ ∀ x ∈ R, w'.fs.block x = w.fs.block x

theorem Carries.refl (w : World) : w.Carries w := fun _ hg => ⟨hg, fun _ _ => rfl⟩

theorem Carries.trans (h : w.Carries w') {w'' : World} (h' : w'.Carries w'') : w.Carries w'' :=
  fun R hg => by
    obtain ⟨hg', hblock⟩ := h R hg
    obtain ⟨hg'', hblock'⟩ := h' R hg'
    exact ⟨hg'', fun x hx => (hblock' x hx).trans (hblock x hx)⟩

theorem Guards.owns {R : Set ℕ} (hg : w.Guards R) (h : w.Consistent) {ino : Ext4Inode}
    (hi : w.files i = some ino) : Owns (w.rest i ∪ R) w.fs ino.inodeOnDisk where
  sound := h.sound
  bitmaps := fun x hx => Or.inl ((h.owns hi).bitmaps x hx)
  rest := fun x hx => hx.elim ((h.owns hi).rest x) (hg.used x)
  ordered := h.ordered i ino hi
  nodup := h.once i ino hi
  apart := fun x hx hr => hr.elim ((h.owns hi).apart x hx) (hg.files i ino hi x hx)
  used := h.used i ino hi

/-- **A call on one file**, whatever it has to leave alone. -/
theorem carries_of_step (h : w.Consistent) {ino ino' : Ext4Inode} {fs' : Ext4FileSystem}
    (hi : w.files i = some ino)
    (hstep : ∀ R, Owns R w.fs ino.inodeOnDisk → Owns.Step R w.fs fs' ino'.inodeOnDisk) :
    w.Carries (w.put i (some ino') fs') := by
  intro R hg
  have hs := hstep _ (hg.owns h hi)
  have hblock : ∀ x ∈ R, fs'.block x = w.fs.block x := fun x hx =>
    hs.keeps.block x (Or.inr hx) (hg.bitmaps x hx)
  refine ⟨⟨fun x hx => hs.owns.rest x (Or.inr hx), fun x hx hb => ?_, fun j jno hj x hx hr => ?_⟩,
    hblock⟩
  · rw [show (w.put i (some ino') fs').fs.bitmaps = w.fs.bitmaps from hs.keeps.bitmaps] at hb
    exact hg.bitmaps x hx hb
  · change x ∈ jno.inodeOnDisk.owned fs' at hx
    rw [files_put] at hj
    split at hj
    · cases hj
      exact hs.owns.apart x hx (Or.inr hr)
    · rename_i hji
      have hkeeps := (hstep _ (h.owns hi)).keeps
      rw [(h.owned_other hs.owns.sound hkeeps hj hji).1] at hx
      exact hg.files j jno hj x hx hr

end World

end QuackOS.Ext4
