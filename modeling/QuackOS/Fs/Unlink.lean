import QuackOS.Ext4.Owns
import QuackOS.Fs.Coherence
import QuackOS.Fs.References

/-!
# Removing a name

`unlink` takes the name out of the directory and leaves the entry in memory alone.  While the
entry is there, a walk comes to it without asking the directory.

* `FsServer.InOrder` — the references to entries are those of the open files and of the root;
* `inOrder_run` — every run leads to such a state;
* `Removed` — the name is gone, and the file is when nobody has it open;
* `InOrder.not_removed` — a path that a descriptor is open on is still opened after `unlink`.
-/

namespace QuackOS.Fs

open Ext4 (Name Ext4Inode Volume)

/-! ## Negative entries -/

namespace Mount

variable {m m' : Mount} {refs : Multiset ℕ} {d e parent : ℕ}

theorem isNegative_of_shape (hshape : m'.shape = m.shape) (d : ℕ) :
    m'.isNegative d = m.isNegative d := by
  have hflags : ∀ m : Mount, m.isNegative d =
      (m.shape d).any fun s => s.2.2.2.contains .negative := by
    intro m
    unfold isNegative shape
    cases m.dentries d <;> rfl
  rw [hflags, hflags, hshape]

theorem isNegative_walked (hc : m.Counted refs) {D : Dentry} (hD : m.dentries d = some D)
    (hw : Walked m m') (hd : ∃ D', m'.dentries d = some D') : m'.isNegative d = m.isNegative d := by
  obtain ⟨D', hD'⟩ := hd
  obtain ⟨D₀, hD₀, -, -, hflags⟩ := hw.old d (hc.bounded hD) D' hD'
  rw [isNegative, isNegative, hD₀, hD', Option.any_some, Option.any_some, hflags]

/-- The path leads to the entry in memory, and that is not negative. -/
structure Stands (m : Mount) (refs : Multiset ℕ) (x : ℕ) (names : List Name) (d : ℕ) : Prop where
  counted : m.Counted refs
  leads : m.Leads x names d
  positive : m.isNegative d = false

variable {x : ℕ} {names : List Name} {refs' : Multiset ℕ}

theorem Leads.target (h : m.Leads x names d) : ∃ D, m.dentries d = some D := by
  induction names generalizing x with
  | nil =>
    obtain ⟨rfl, hD⟩ := h
    exact hD
  | cons name names ih =>
    obtain ⟨_, _, _, _, hrest⟩ := h
    exact ih hrest

/-- **It stays so while the entry is held.** -/
theorem Stands.walked (h : m.Stands refs x names d) (hw : Walked m m') (hc' : m'.Counted refs')
    (hd : d ∈ refs') : m'.Stands refs' x names d := by
  have hleads := h.leads.walked h.counted hw hc' hd
  obtain ⟨D, hD⟩ := h.leads.target
  exact ⟨hc', hleads, (isNegative_walked h.counted hD hw hleads.target).trans h.positive⟩

theorem Stands.release (h : m.Stands (e ::ₘ refs) x names d) (hr : m.release e = some m')
    (hd : d ∈ refs) : m'.Stands refs x names d :=
  h.walked (walked_release hr) (h.counted.release hr) hd

theorem Stands.finish {α : Type} {r r' : Except Errno α} {e₁ e₂ : ℕ}
    (h : m.Stands (e₁ ::ₘ e₂ ::ₘ refs) x names d) (hf : m.finish e₁ e₂ r = some (m', r'))
    (hd : d ∈ refs) : m'.Stands refs x names d := by
  obtain ⟨m₁, h₁, hf⟩ := Option.bind_eq_some_iff.mp hf
  obtain ⟨m₂, h₂, hf⟩ := Option.bind_eq_some_iff.mp hf
  cases hf
  exact (h.release h₁ (Multiset.mem_cons_of_mem hd)).release h₂ hd

/-- A walk along the path comes to the entry. -/
theorem Stands.pathWalk {path : Name} {e : ℕ} (hleads : m.Leads m.root (components path) d)
    (hc : m.Counted refs) (hroot : m.root ∈ refs)
    (hw : m.pathWalk path = some (m', .ok (e, parent))) (hpositive : m'.isNegative e = false) :
    e = d ∧ m'.Stands (d ::ₘ parent ::ₘ refs) m.root (components path) d := by
  obtain ⟨m₁, parent₁, hwalk, -, hc₁, -⟩ := pathWalk_of_leads hc hroot hleads
  obtain ⟨rfl, rfl, rfl⟩ : m₁ = m' ∧ d = e ∧ parent₁ = parent := by
    have heq := hwalk.symm.trans hw
    simp only [Option.some.injEq, Prod.mk.injEq, Except.ok.injEq] at heq
    exact heq
  exact ⟨rfl, hc₁, hleads.walked hc (pathWalk_walked hc hroot hw) hc₁ (by simp), hpositive⟩

/-! ## Opening and unlinking -/

/-- **A path in memory is opened**, if its entry is not negative. -/
theorem openPath_of_leads {path : Name} (flags : UInt8) (hc : m.Counted refs)
    (hroot : m.root ∈ refs) (hleads : m.Leads m.root (components path) d)
    (hpositive : m.isNegative d = false) : ∃ m', m.openPath path flags = some (m', .ok d) := by
  obtain ⟨m₁, parent, hwalk, hsame, hc₁, hbelow⟩ := pathWalk_of_leads hc hroot hleads
  rw [Multiset.cons_swap] at hc₁
  obtain ⟨m₂, hrelease, hsame₂, -⟩ :=
    hc₁.release_of_shared (hbelow.shared (Multiset.mem_cons_self d refs))
  refine ⟨m₂, ?_⟩
  rw [openPath, hwalk]
  simp only [Option.bind_eq_bind, Option.bind_some, hrelease]
  rw [isNegative_of_shape (hsame.trans hsame₂).shape, hpositive]
  rfl

/-- How an `unlink` went that succeeded. -/
structure Unlinked (m : Mount) (path : Name) (m₁ m₂ : Mount) (d parent : ℕ) (c : CachedInode) :
    Prop where
  walk : m.pathWalk path = some (m₁, .ok (d, parent))
  positive : m₁.isNegative d = false
  inode : m₁.inodeAt parent = some c
  unlinkIn : m₁.unlinkIn parent c d = some (m₂, .ok ())

theorem unlinked_of_unlink {path : Name} (h : m.unlink path = some (m', .ok ())) :
    ∃ m₁ m₂ d parent c, Unlinked m path m₁ m₂ d parent c ∧ m₂.finish d parent (.ok ()) =
      some (m', .ok ()) := by
  cases unlink_goes h with
  | refused _ drop => cases finish_result drop
  | @ran m₁ m₂ _ d parent c r₂ _ walk positive inode unlink drop =>
    obtain rfl := finish_result drop
    exact ⟨m₁, m₂, d, parent, c, ⟨walk, positive, inode, unlink⟩, drop⟩

/-- **Unlinking a path that is open** leaves its entry in memory, and the path to it. -/
theorem unlink_stands {path : Name} (hc : m.Counted refs) (hroot : m.root ∈ refs) (hd : d ∈ refs)
    (hleads : m.Leads m.root (components path) d) (h : m.unlink path = some (m', .ok ())) :
    m'.root = m.root ∧ m'.Stands refs m.root (components path) d := by
  obtain ⟨m₁, m₂, e, parent, c, hu, hfinish⟩ := unlinked_of_unlink h
  obtain ⟨rfl, hstands⟩ := Stands.pathWalk hleads hc hroot hu.walk hu.positive
  obtain ⟨-, -, hc₂⟩ := unlinkIn_spec hstands.counted hu.unlinkIn
  have hstands₂ := hstands.walked (unlinkIn_walked hu.unlinkIn) hc₂ (by simp)
  exact ⟨(unlink_counted hc hroot h).1, hstands₂.finish hfinish hd⟩

end Mount

variable {s s' s₁ s₂ : FsServer Mount ℕ} {r : Request} {path : String} {fd d : ℕ} {f : File ℕ}

namespace FsServer

/-! ## The references of the open files -/

/-- The entries the open files hold. -/
def openDentries (s : FsServer Mount ℕ) : Multiset ℕ :=
  Slots.contents fdTableSize (Option.map File.dentry ∘ s.file 0)

/-- **The references to entries are those of the open files and of the root.** -/
def InOrder (s : FsServer Mount ℕ) : Prop :=
  s.vfs.Counted (s.vfs.root ::ₘ s.openDentries)

theorem openDentries_setFile (h : s.file 0 fd = some f) (o : Option (File ℕ)) :
    (s.setFile 0 fd o).openDentries = Slots.contents fdTableSize
      (Function.update (Option.map File.dentry ∘ s.file 0) fd (o.map File.dentry)) := by
  rw [openDentries, file_setFile_eq h, Function.comp_update]

/-- The file stays the same but for its cursor. -/
theorem openDentries_setPos (h : s.file 0 fd = some f) (pos : ℕ) :
    (s.setFile 0 fd (some { f with pos })).openDentries = s.openDentries := by
  have hself : (some { f with pos }).map File.dentry = (Option.map File.dentry ∘ s.file 0) fd := by
    rw [Function.comp_apply, h]
    rfl
  rw [openDentries_setFile h, hself, Function.update_eq_self]
  rfl

theorem openDentries_close (h : s.file 0 fd = some f) :
    s.openDentries = f.dentry ::ₘ (s.setFile 0 fd none).openDentries := by
  rw [openDentries_setFile h, openDentries, Option.map_none]
  exact Slots.contents_remove (lt_of_file h) (by rw [Function.comp_apply, h]; rfl)

/-- An entry with an open file is held. -/
theorem mem_openDentries (h : s.file 0 fd = some f) : f.dentry ∈ s.openDentries :=
  Slots.mem_contents.mpr ⟨fd, lt_of_file h, by rw [Function.comp_apply, h]; rfl⟩

/-- A file is opened into a free slot. -/
theorem openDentries_open (hfree : s.file 0 fd = none) (hlt : fd < fdTableSize)
    (hfile : s'.file 0 = Function.update (s.file 0) fd (some f)) :
    s'.openDentries = f.dentry ::ₘ s.openDentries := by
  rw [openDentries, hfile, Function.comp_update]
  exact Slots.contents_insert hlt (by rw [Function.comp_apply, hfree]; rfl) f.dentry

/-! ## Every run keeps the order -/

/-- The file systems have changed and the open files have not. -/
theorem inOrder_of_vfs {m : Mount}
    (hm : m.root = s.vfs.root ∧ m.Counted (s.vfs.root ::ₘ s.openDentries)) :
    InOrder { s with vfs := m } := by
  rw [InOrder, hm.1]
  exact hm.2

/-- A cursor has moved. -/
theorem InOrder.setPos (h : InOrder s) (hf : s.file 0 fd = some f) (pos : ℕ) :
    InOrder (s.setFile 0 fd (some { f with pos })) := by
  rw [InOrder, openDentries_setPos hf]
  exact h

/-- Some descriptor is open on what the path leads to. -/
def Held (s : FsServer Mount ℕ) (path : String) : Prop :=
  ∃ fd f, s.file 0 fd = some f ∧ s.vfs.Leads s.vfs.root (components path.toList) f.dentry

theorem InOrder.openFile {flags : UInt8} {r : Except Errno ℕ} (h : InOrder s)
    (ho : s.openFile Mount.vfs 0 path flags = some (s', r)) :
    InOrder s' ∧ ∀ fid, r = .ok fid → Held s' path := by
  have hroot : s.vfs.root ∈ s.vfs.root ::ₘ s.openDentries := Multiset.mem_cons_self _ _
  have hsame (hfile : s'.file 0 = s.file 0) : s'.openDentries = s.openDentries := by
    rw [openDentries, hfile, openDentries]
  rcases openFile_cases Mount.vfs ho with ⟨e, hopen, rfl, hfile⟩ | ⟨d, fid, hopen, rfl, hfree, hlt, hfile⟩ |
    ⟨m, d, hopen, hrelease, rfl, hfile, -⟩
  · obtain ⟨hr, hc⟩ := Mount.openPath_spec h hroot hopen
    refine ⟨?_, fun fid hfid => nomatch hfid⟩
    rw [InOrder, hsame hfile, hr]
    exact hc
  · obtain ⟨hr, hc, hleads⟩ := Mount.openPath_spec h hroot hopen
    refine ⟨?_, fun fid' hfid' => ?_⟩
    · rw [InOrder, openDentries_open hfree hlt hfile, hr, Multiset.cons_swap]
      exact hc
    · cases hfid'
      exact ⟨fid, ⟨d, 0, flags⟩, by rw [hfile, Function.update_self], hleads⟩
  · obtain ⟨hr, hc, -⟩ := Mount.openPath_spec h hroot hopen
    have hr₂ : s'.vfs.root = s.vfs.root := (Mount.releaseLoop_spec hrelease).2.2.1.trans hr
    refine ⟨?_, fun fid hfid => nomatch hfid⟩
    rw [InOrder, hsame hfile, hr₂]
    exact hc.release hrelease

theorem InOrder.closed {m : Mount} (h : InOrder s) (hf : s.file 0 fd = some f)
    (rel : s.vfs.release f.dentry = some m) :
    InOrder (({ s with vfs := m } : FsServer Mount ℕ).setFile 0 fd none) := by
  rw [InOrder, openDentries_close hf, Multiset.cons_swap] at h
  have hr : m.root = s.vfs.root := (Mount.releaseLoop_spec rel).2.2.1
  have hc := h.release rel
  rw [← hr] at hc
  exact hc

/-- The file systems have changed, and at most a cursor with them. -/
theorem Moves.inOrder {m : Mount} (hmoves : Moves s m fd f s') (hf : s.file 0 fd = some f)
    (hm : m.root = s.vfs.root ∧ m.Counted (s.vfs.root ::ₘ s.openDentries)) : InOrder s' := by
  rcases hmoves with rfl | ⟨pos, rfl⟩
  · exact inOrder_of_vfs hm
  · exact (inOrder_of_vfs hm).setPos hf pos

/-- **A request keeps the order.** -/
theorem InOrder.step (h : InOrder s) (hs : s.step r = some s') : InOrder s' := by
  have hroot : s.vfs.root ∈ s.vfs.root ::ₘ s.openDentries := Multiset.mem_cons_self _ _
  cases step_goes hs with
  | nothing => exact h
  | seeks hf pos => exact h.setPos hf pos
  | openFile hop => exact (h.openFile hop).1
  | close hf rel => exact h.closed hf rel
  | read hf op hmoves =>
    refine hmoves.inOrder hf ?_
    unfold Mount.read at op
    split at op
    · cases op
      exact ⟨rfl, h⟩
    · obtain ⟨⟨bs, ino⟩, -, heq⟩ := Option.map_eq_some_iff.mp op
      cases heq
      exact ⟨rfl, h.setExt4 _ ino⟩
  | write hf op hmoves =>
    refine hmoves.inOrder hf ?_
    unfold Mount.write at op
    split at op
    · cases op
      exact ⟨rfl, h⟩
    · obtain ⟨⟨n, ino, fs⟩, -, heq⟩ := Option.map_eq_some_iff.mp op
      cases heq
      exact ⟨rfl, Mount.Counted.setExt4 (m := s.vfs.setFs fs) ⟨h.heap, h.children⟩ _ ino⟩
  | getdents hf op hmoves =>
    refine hmoves.inOrder hf ?_
    unfold Mount.getdents at op
    split at op
    · cases op
      exact ⟨rfl, h⟩
    · obtain ⟨⟨o, ino⟩, -, heq⟩ := Option.map_eq_some_iff.mp op
      cases heq
      exact ⟨rfl, h.setExt4 _ ino⟩
  | readlink op => exact inOrder_of_vfs (Mount.readlink_spec h hroot op)
  | create op => exact inOrder_of_vfs (Mount.create_spec h hroot op)
  | unlink op => exact inOrder_of_vfs (Mount.unlink_counted h hroot op)
  | rename op => exact inOrder_of_vfs (Mount.rename_spec h hroot op)

theorem inOrder_boot (volume : Volume) (attrs : ℕ → Ext4.InodeAttr) (checksumSeed : UInt32) :
    InOrder (boot volume attrs checksumSeed) := by
  have hheap : (boot volume attrs checksumSeed).vfs.heap =
      Function.update (fun _ => none) 0 (some ⟨none, 1⟩) := by
    funext d
    by_cases hd : d = 0
    · subst hd
      rfl
    · simp [Mount.heap, boot, Mount.new, hd]
  have hopen : (boot volume attrs checksumSeed).openDentries = 0 := by
    refine Multiset.eq_zero_of_forall_notMem fun d hd => ?_
    obtain ⟨fd, -, hfd⟩ := Slots.mem_contents.mp hd
    cases hfd
  rw [InOrder, hopen]
  refine ⟨?_, fun d D name c hD hchild => ?_⟩
  · rw [hheap]
    exact References.counted_single 0
  · by_cases hd : d = 0
    · subst hd
      cases hD
      cases hchild
    · simp [boot, Mount.new, hd] at hD

/-- **Every run leads to a state in order.** -/
theorem inOrder_run (volume : Volume) (attrs : ℕ → Ext4.InodeAttr) (checksumSeed : UInt32)
    (rs : List Request) (hrun : rs.foldlM step (boot volume attrs checksumSeed) = some s) :
    InOrder s :=
  Run.foldlM_invariant (I := InOrder) (fun _ _ _ _ h hs => h.step hs) (inOrder_boot ..) hrun

/-! ## Removing a name -/

/-- `unlink`, for `OP_UNLINK`. -/
def unlinkFile (s : FsServer Mount ℕ) (path : String) :
    Option (FsServer Mount ℕ × Except Errno Unit) :=
  (Mount.vfs.unlink s.vfs path).map s.withVfs

/-- `create`, for `OP_CREATE`. -/
def createFile (s : FsServer Mount ℕ) (path : String) (mode : BitVec 64) :
    Option (FsServer Mount ℕ × Except Errno Unit) :=
  (Mount.vfs.create s.vfs path mode).map s.withVfs

/-- Descriptors are closed one after another. -/
def closeAll (s : FsServer Mount ℕ) (fds : List ℕ) : Option (FsServer Mount ℕ) :=
  fds.foldlM (fun s fd => (s.close Mount.vfs 0 fd).map Prod.fst) s

/-- The inode that a walk along the path comes to. -/
def Reaches (s : FsServer Mount ℕ) (path : String) (c : CachedInode) : Prop :=
  ∃ m d parent, s.vfs.pathWalk path.toList = some (m, .ok (d, parent)) ∧ m.inodeAt d = some c

/-- The bit of inode `n` in its bitmap is clear, and so are those of the blocks. -/
def Freed (v : Volume) (n : ℕ) (blocks : List ℕ) : Prop :=
  (∀ g, v.inodeGroups[(n - 1) / v.inodesPerGroup]? = some g →
    Buffer.testBit (v.fs.block g.inodeBitmap) ((n - 1) % v.inodesPerGroup) = false) ∧
  ∀ x ∈ blocks, v.fs.used x = false

/-- What `unlink` of the path in state `s₁` is to leave in `s₂`. -/
structure Removed (path : String) (s₁ s₂ : FsServer Mount ℕ) : Prop where
  /-- The path is not opened any more. -/
  opens : ∀ flags : UInt8, flags &&& Mount.oCreat ≠ Mount.oCreat →
    ∃ s₃, s₂.openFile Mount.vfs 0 path flags = some (s₃, .error .ENOENT)
  /-- It can be created. -/
  creates : ∀ mode, ∃ s₃, s₂.createFile path mode = some (s₃, .ok ())
  /-- When that was the last link, the file is gone once no descriptor is open on it. -/
  frees : ∀ c, s₁.Reaches path c → c.ext4.inodeOnDisk.linksCount = 1 →
    ∀ fds s₃, s₂.closeAll fds = some s₃ → (∀ fd, s₃.inodeNum fd ≠ some c.ext4.inodeNum) →
      Freed s₃.vfs.volume c.ext4.inodeNum (c.ext4.inodeOnDisk.mapped s₁.vfs.volume.fs)

/-- A path that stands is not reported missing. -/
theorem openFile_of_stands {refs : Multiset ℕ} {flags : UInt8}
    (h : s.vfs.Stands refs s.vfs.root (components path.toList) d) (hroot : s.vfs.root ∈ refs) :
    s.openFile Mount.vfs 0 path flags ≠ some (s', .error .ENOENT) := by
  intro hopen
  obtain ⟨m, hm⟩ := Mount.openPath_of_leads flags h.counted hroot h.leads h.positive
  have hvfs : Mount.vfs.openPath s.vfs path flags = some (m, .ok d) := hm
  unfold FsServer.openFile at hopen
  rw [hvfs] at hopen
  simp only [Option.bind_eq_bind, Option.bind_some] at hopen
  split at hopen
  · cases hopen
  · obtain ⟨_, -, hopen⟩ := Option.bind_eq_some_iff.mp hopen
    cases hopen

/-- **A path that a descriptor is open on is still opened after `unlink`.** -/
theorem InOrder.not_removed (h : InOrder s₁) (hheld : Held s₁ path)
    (hunlink : s₁.unlinkFile path = some (s₂, .ok ())) : ¬ Removed path s₁ s₂ := by
  intro hremoved
  obtain ⟨s₃, hopen⟩ := hremoved.opens 0 (by decide)
  obtain ⟨fd, f, hf, hleads⟩ := hheld
  obtain ⟨⟨m, r⟩, hunlink', heq⟩ := Option.map_eq_some_iff.mp hunlink
  cases heq
  obtain ⟨hr, hstands⟩ := Mount.unlink_stands h (Multiset.mem_cons_self _ _)
    (Multiset.mem_cons_of_mem (mem_openDentries hf)) hleads hunlink'
  have hroot : m.root ∈ s₁.vfs.root ::ₘ s₁.openDentries := by
    rw [hr]
    exact Multiset.mem_cons_self _ _
  have hstands' : m.Stands (s₁.vfs.root ::ₘ s₁.openDentries) m.root (components path.toList)
      f.dentry := by
    rw [hr]
    exact hstands
  exact openFile_of_stands hstands' hroot hopen

/-- With a free descriptor, a path that is found is opened. -/
theorem openFile_of_openPath {flags : UInt8} {m : Mount}
    (hfree : ∃ fd < fdTableSize, s.file 0 fd = none)
    (hopen : s.vfs.openPath path.toList flags = some (m, .ok d)) :
    ∃ tables fid, s.openFile Mount.vfs 0 path flags = some (⟨m, tables⟩, .ok fid) := by
  obtain ⟨fid, hfid⟩ : ∃ fid,
      Slots.firstFree fdTableSize ((s.fdTables 0).getD fun _ => none) = some fid := by
    obtain ⟨fd, hlt, hnone⟩ := hfree
    rw [← Option.isSome_iff_exists, Slots.firstFree, List.find?_isSome]
    refine ⟨fd, List.mem_range.mpr hlt, ?_⟩
    cases ht : s.fdTables 0 with
    | none => rfl
    | some t =>
      simp only [file, ht, Option.bind_some, FdTable.getFile, if_pos hlt] at hnone
      simp [hnone]
  have hvfs : Mount.vfs.openPath s.vfs path flags = some (m, .ok d) := hopen
  unfold FsServer.openFile
  rw [hvfs]
  simp only [Option.bind_eq_bind, Option.bind_some, FdTable.allocFd, hfid, Option.map_some]
  exact ⟨_, fid, rfl⟩

end FsServer

end QuackOS.Fs
