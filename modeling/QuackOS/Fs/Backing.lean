import QuackOS.Fs.Unlink
import QuackOS.Fs.Listing

/-!
# The inode behind an open file

`open` takes a descriptor for the entry at the end of the path.  With `O_CREAT` it does so for a
negative entry as well, and makes no file.

* `Dentry.Backed` — an entry is negative just when it has no inode;
* `Mount.Backs` — an operation keeps this, and the inodes that are there: every operation does;
* `FsServer.serve_held` — what a request does to the table of open files;
* `FsServer.OpenSound` — every open file has an inode, in every state of a run, and what is
  opened with `O_CREAT` is there;
* `FsServer.openSound_iff` — this is so just when no `O_CREAT` opens a missing path.
-/

namespace QuackOS.Fs

open Ext4 (Name Ext4Inode Ext4DirEntry Volume)

/-- **An entry is negative just when it has no inode.** -/
def Dentry.Backed (D : Dentry) : Prop := D.inode = none ↔ D.flags.contains .negative = true

namespace Mount

variable {m m' m'' : Mount} {d e : ℕ} {name : Name}

/-- **No entry in memory lacks its inode**, but for the negative ones. -/
structure AllBacked (m : Mount) : Prop where
  bounded : ∀ d D, m.dentries d = some D → d < m.nextDentry
  backed : ∀ d D, m.dentries d = some D → D.Backed

/-- From `m` to `m'` this is kept, and the entries that were there keep their inodes. -/
structure Backs (m m' : Mount) : Prop where
  all : m.AllBacked → m'.AllBacked
  le : m.nextDentry ≤ m'.nextDentry
  old : ∀ d < m.nextDentry, ∀ D', m'.dentries d = some D' → ∃ D, m.dentries d = some D ∧
    (D.inode ≠ none → D'.inode ≠ none)

/-! ## Single changes -/

theorem Backs.trans (h : Backs m m') (h' : Backs m' m'') : Backs m m'' where
  all := fun ha => h'.all (h.all ha)
  le := h.le.trans h'.le
  old := fun d hd D'' hD'' => by
    obtain ⟨D', hD', hinode'⟩ := h'.old d (hd.trans_le h.le) D'' hD''
    obtain ⟨D, hD, hinode⟩ := h.old d hd D' hD'
    exact ⟨D, hD, fun hn => hinode' (hinode hn)⟩

/-- The entries are the same. -/
theorem backs_of_dentries (hd : m'.dentries = m.dentries) (hn : m'.nextDentry = m.nextDentry) :
    Backs m m' where
  all := fun ha => ⟨by rw [hd, hn]; exact ha.bounded, by rw [hd]; exact ha.backed⟩
  le := hn.ge
  old := fun d _ D' hD' => ⟨D', by rwa [← hd], id⟩

theorem Backs.refl (m : Mount) : Backs m m := backs_of_dentries rfl rfl

theorem backs_setFs (m : Mount) (fs : Ext4.Ext4FileSystem) : Backs m (m.setFs fs) :=
  backs_of_dentries rfl rfl

/-- One entry is changed or goes. -/
theorem backs_of_update (hd : ∀ e ≠ d, m'.dentries e = m.dentries e)
    (hn : m'.nextDentry = m.nextDentry)
    (hold : ∀ D', m'.dentries d = some D' → ∃ D, m.dentries d = some D ∧
      (D.inode ≠ none → D'.inode ≠ none) ∧ (D.Backed → D'.Backed)) : Backs m m' := by
  have hentry : ∀ e D', m'.dentries e = some D' → ∃ D, m.dentries e = some D ∧
      (D.inode ≠ none → D'.inode ≠ none) ∧ (D.Backed → D'.Backed) := by
    intro e D' hD'
    by_cases he : e = d
    · subst he
      exact hold D' hD'
    · exact ⟨D', by rwa [← hd e he], id, id⟩
  refine ⟨fun ha => ⟨fun e D' hD' => ?_, fun e D' hD' => ?_⟩, hn.ge, fun e _ D' hD' => ?_⟩
  · obtain ⟨D, hD, -⟩ := hentry e D' hD'
    rw [hn]
    exact ha.bounded e D hD
  · obtain ⟨D, hD, -, hback⟩ := hentry e D' hD'
    exact hback (ha.backed e D hD)
  · obtain ⟨D, hD, hinode, -⟩ := hentry e D' hD'
    exact ⟨D, hD, hinode⟩

/-- A new entry. -/
theorem backs_of_new {D : Dentry} (hback : D.Backed)
    (hd : m'.dentries = Function.update m.dentries m.nextDentry (some D))
    (hn : m'.nextDentry = m.nextDentry + 1) : Backs m m' := by
  have hentry : ∀ e D', m'.dentries e = some D' →
      m.dentries e = some D' ∨ e = m.nextDentry ∧ D' = D := by
    intro e D' hD'
    rw [hd] at hD'
    by_cases he : e = m.nextDentry
    · subst he
      rw [Function.update_self] at hD'
      exact .inr ⟨rfl, (Option.some.inj hD').symm⟩
    · rw [Function.update_of_ne he] at hD'
      exact .inl hD'
  refine ⟨fun ha => ⟨fun e D' hD' => ?_, fun e D' hD' => ?_⟩, by omega, fun e he D' hD' => ?_⟩
  · rcases hentry e D' hD' with h | ⟨rfl, -⟩
    · have := ha.bounded e D' h
      omega
    · omega
  · rcases hentry e D' hD' with h | ⟨-, rfl⟩
    · exact ha.backed e D' h
    · exact hback
  · rcases hentry e D' hD' with h | ⟨rfl, -⟩
    · exact ⟨D', h, id⟩
    · omega

/-- A change of one entry that is no matter of inodes, or gives it one. -/
theorem backs_modify {f : Dentry → Dentry}
    (hf : ∀ D, (D.inode ≠ none → (f D).inode ≠ none) ∧ (D.Backed → (f D).Backed)) :
    Backs m (m.modify d f) := by
  refine @backs_of_update m (m.modify d f) d (fun e he => ?_) rfl (fun D' hD' => ?_)
  · rw [dentries_modify, if_neg he]
  · rw [dentries_modify, if_pos rfl] at hD'
    obtain ⟨D, hD, rfl⟩ := Option.map_eq_some_iff.mp hD'
    exact ⟨D, hD, hf D⟩

theorem backs_clone (m : Mount) (d : ℕ) : Backs m (m.clone d) := backs_modify fun _ => ⟨id, id⟩

theorem backs_insertChild (m : Mount) (d : ℕ) (name : Name) (e : ℕ) :
    Backs m (m.insertChild d name e) := backs_modify fun _ => ⟨id, id⟩

/-- An inode in place of another one. -/
theorem backs_mapInode (m : Mount) (d : ℕ) (f : CachedInode → CachedInode) :
    Backs m (m.modify d fun D => { D with inode := D.inode.map f }) := by
  refine backs_modify fun D => ⟨fun hn => ?_, fun hb => ?_⟩
  · rwa [Ne, Option.map_eq_none_iff]
  · rwa [Dentry.Backed, Option.map_eq_none_iff]

theorem backs_setExt4 (m : Mount) (d : ℕ) (ino : Ext4Inode) : Backs m (m.setExt4 d ino) :=
  backs_mapInode m d _

/-! ## References -/

theorem backs_dropInode {o : Option CachedInode} (h : o.elim (some m) m.dropInode = some m') :
    Backs m m' := by
  obtain ⟨hd, hn, -⟩ := dentries_dropInode h
  exact backs_of_dentries hd hn

theorem backs_release (h : m.release d = some m') : Backs m m' := by
  obtain ⟨-, hn, -, hshed⟩ := releaseLoop_spec h
  refine ⟨fun ha => ⟨fun e D' hD' => ?_, fun e D' hD' => ?_⟩, hn.ge, fun e _ D' hD' => ?_⟩
  · obtain ⟨D, hD, -⟩ := hshed e D' hD'
    rw [hn]
    exact ha.bounded e D hD
  · obtain ⟨D, hD, heq⟩ := hshed e D' hD'
    rw [heq]
    exact ha.backed e D hD
  · obtain ⟨D, hD, heq⟩ := hshed e D' hD'
    refine ⟨D, hD, fun hn => ?_⟩
    rw [heq]
    exact hn

theorem backs_finish {α : Type} {r r' : Except Errno α} (h : m.finish d e r = some (m', r')) :
    Backs m m' := by
  obtain ⟨m₁, h₁, h⟩ := Option.bind_eq_some_iff.mp h
  obtain ⟨m₂, h₂, h⟩ := Option.bind_eq_some_iff.mp h
  cases h
  exact (backs_release h₁).trans (backs_release h₂)

/-! ## Lookup -/

theorem backs_lookupChild {r : Option ℕ} (h : m.lookupChild d name = (m', r)) : Backs m m' := by
  unfold lookupChild at h
  split at h
  · cases h
    exact .refl m
  · split at h
    · cases h
      exact backs_clone ..
    · cases h
      exact backs_modify fun _ => ⟨id, id⟩

theorem backs_newDentry {flags : DentryFlags} {inode : Option CachedInode}
    (hback : inode = none ↔ flags.contains .negative = true) :
    Backs m (m.newDentry d name flags inode).1 :=
  (backs_clone m d).trans (backs_of_new (D := ⟨_, _, _, _, _, _⟩) hback rfl rfl)

/-- What an inode makes of an entry is not negative. -/
theorem ofMode_positive (mode : UInt16) : (DentryFlags.ofMode mode).contains .negative = false := by
  unfold DentryFlags.ofMode
  dsimp only
  split_ifs <;> decide

theorem backs_newChild {entry : Option Ext4DirEntry} {child : ℕ}
    (h : m.newChild d name entry = some (m', child)) : Backs m m' := by
  cases entry with
  | none =>
    cases h
    exact backs_newDentry (iff_of_true rfl (by decide))
  | some e =>
    obtain ⟨c, -, heq⟩ := Option.map_eq_some_iff.mp h
    cases heq
    refine backs_newDentry (iff_of_false (Option.some_ne_none c) ?_)
    rw [ofMode_positive]
    exact Bool.false_ne_true

theorem backs_lookup {c : CachedInode} {child : ℕ} (h : m.lookup d c name = some (m', child)) :
    Backs m m' := by
  unfold lookup at h
  split at h
  · rename_i hchild
    cases h
    exact backs_lookupChild hchild
  · rename_i hmiss
    obtain ⟨⟨entry, ino⟩, -, h⟩ := Option.bind_eq_some_iff.mp h
    obtain ⟨⟨m₂, child'⟩, hnew, h⟩ := Option.bind_eq_some_iff.mp h
    cases h
    exact (((backs_lookupChild hmiss).trans (backs_setExt4 ..)).trans (backs_newChild hnew)).trans
      (backs_insertChild ..)

theorem backs_walkStep {r : Except Errno ℕ} (h : m.walkStep d name = some (m', r)) :
    Backs m m' := by
  unfold walkStep at h
  split at h
  · rename_i hchild
    cases h
    exact backs_lookupChild hchild
  · rename_i hmiss
    split at h
    · cases h
      exact backs_lookupChild hmiss
    · obtain ⟨⟨m₂, child⟩, hlookup, heq⟩ := Option.map_eq_some_iff.mp h
      cases heq
      exact ((backs_lookupChild hmiss).trans (backs_lookup hlookup)).trans (backs_insertChild ..)

theorem backs_walkLoop {names : List Name} {r : Except Errno (ℕ × ℕ)}
    (h : walkLoop names m d = some (m', r)) : Backs m m' := by
  induction names generalizing m d with
  | nil =>
    cases h
    exact backs_clone ..
  | cons name names ih =>
    unfold walkLoop at h
    obtain ⟨⟨m₁, r₁⟩, hstep, h⟩ := Option.bind_eq_some_iff.mp h
    have h₁ := backs_walkStep hstep
    cases r₁ with
    | error e =>
      obtain ⟨m₂, hrel, h⟩ := Option.bind_eq_some_iff.mp h
      cases h
      exact h₁.trans (backs_release hrel)
    | ok next =>
      dsimp only at h
      split at h
      · cases h
        exact h₁
      · obtain ⟨m₂, hrel, h⟩ := Option.bind_eq_some_iff.mp h
        exact (h₁.trans (backs_release hrel)).trans (ih h)

theorem backs_pathWalk {path : Name} {r : Except Errno (ℕ × ℕ)}
    (h : m.pathWalk path = some (m', r)) : Backs m m' :=
  (backs_clone ..).trans (backs_walkLoop h)

/-! ## Operations on paths -/

theorem backs_openPath {path : Name} {flags : UInt8} {r : Except Errno ℕ}
    (h : m.openPath path flags = some (m', r)) : Backs m m' := by
  cases openPath_goes h with
  | noWalk walk => exact backs_pathWalk walk
  | negative walk rel rel' =>
    exact ((backs_pathWalk walk).trans (backs_release rel)).trans (backs_release rel')
  | opened walk rel => exact (backs_pathWalk walk).trans (backs_release rel)

/-- A negative entry is opened with `O_CREAT` only. -/
theorem creat_of_openPath {path : Name} {flags : UInt8}
    (h : m.openPath path flags = some (m', .ok d)) (hneg : m'.isNegative d = true) :
    flags &&& oCreat = oCreat := by
  cases openPath_goes h with
  | opened _ _ positive =>
    by_contra hcreat
    exact positive ⟨hneg, hcreat⟩

theorem updateTypeFromNegative_positive (f : DentryFlags) :
    (f.updateTypeFromNegative .regular).contains .negative = false := by
  have hzero : (f.bits &&& ~~~1 ||| 2) &&& 1 = (0 : UInt32) := by
    apply UInt32.toBitVec_inj.mp
    ext i hi
    simp only [UInt32.toBitVec_and, UInt32.toBitVec_or, UInt32.toBitVec_not, BitVec.getElem_and,
      BitVec.getElem_or, BitVec.getElem_not]
    by_cases h0 : i = 0
    · subst h0
      simp
    · have h1 : (UInt32.toBitVec 1)[i] = false := by
        change (1#32)[i] = false
        simp [BitVec.getElem_one, h0]
      rw [h1]
      simp
  change ((f.bits &&& ~~~1 ||| 2) &&& 1 == (1 : UInt32)) = false
  rw [hzero]
  rfl

theorem backs_createIn {parent : ℕ} {c : CachedInode} {mode : UInt16}
    (h : m.createIn parent c d mode = some m') : Backs m m' := by
  obtain ⟨n, _, volume, attrs, _, ino, _, -, -, hmade⟩ := createIn_goes h
  have h₁ : Backs m { m with volume := volume, attrs := attrs } := backs_of_dentries rfl rfl
  have h₂ := h₁.trans (backs_setExt4 _ parent ino)
  -- the entry gets an inode, and is not negative any more
  have h₃ : ∀ m₂ : Mount, Backs m₂ (m₂.modify d (madeEntry n mode)) := by
    intro m₂
    refine backs_modify fun D =>
      ⟨fun _ => Option.some_ne_none _, fun _ => iff_of_false (Option.some_ne_none _) ?_⟩
    rw [madeEntry, updateTypeFromNegative_positive]
    exact Bool.false_ne_true
  rcases hmade with rfl | ⟨old, hdrop⟩
  · exact h₂.trans (h₃ _)
  · exact (h₂.trans (h₃ _)).trans (@backs_dropInode _ _ (some old) hdrop)

theorem backs_create {path : Name} {mode : UInt16} {r : Except Errno Unit}
    (h : m.create path mode = some (m', r)) : Backs m m' := by
  cases create_goes h with
  | noWalk walk => exact backs_pathWalk walk
  | refused walk drop => exact (backs_pathWalk walk).trans (backs_finish drop)
  | created walk _ make drop =>
    exact ((backs_pathWalk walk).trans (backs_createIn make)).trans (backs_finish drop)

theorem backs_unlinkIn {parent : ℕ} {c : CachedInode} {r : Except Errno Unit}
    (h : m.unlinkIn parent c d = some (m', r)) : Backs m m' := by
  obtain rfl | ⟨found, ino, fs, -, rfl⟩ := unlinkIn_goes h
  · exact .refl _
  · exact (backs_setFs m fs).trans (backs_setExt4 ..)

theorem backs_unlink {path : Name} {r : Except Errno Unit} (h : m.unlink path = some (m', r)) :
    Backs m m' := by
  cases unlink_goes h with
  | noWalk walk => exact backs_pathWalk walk
  | refused walk drop => exact (backs_pathWalk walk).trans (backs_finish drop)
  | ran walk _ _ unlink drop =>
    exact ((backs_pathWalk walk).trans (backs_unlinkIn unlink)).trans (backs_finish drop)

theorem backs_unlinkOld {src srcParent : ℕ} {r : Except Errno Unit}
    (h : m.unlinkOld src srcParent = some (m', r)) : Backs m m' := by
  obtain rfl | ⟨c, -, hunlink⟩ := unlinkOld_goes h
  · exact .refl _
  · exact backs_unlinkIn hunlink

theorem backs_renameIn {src srcParent dst dstParent : ℕ} {r : Except Errno Unit}
    (h : RenamingIn m src srcParent dst dstParent m' r) : Backs m m' := by
  cases h with
  | noParent => exact .refl m
  | kept unlink => exact backs_unlinkOld unlink
  | made _ unlink _ make => exact (backs_unlinkOld unlink).trans (backs_createIn make)

theorem backs_rename {oldPath newPath : Name} {r : Except Errno Unit}
    (h : m.rename oldPath newPath = some (m', r)) : Backs m m' := by
  cases rename_goes h with
  | noSource walk => exact backs_pathWalk walk
  | negative walk _ drop => exact (backs_pathWalk walk).trans (backs_finish drop)
  | noTarget walk walk' drop =>
    exact ((backs_pathWalk walk).trans (backs_pathWalk walk')).trans (backs_finish drop)
  | ran walk _ walk' run drop drop' =>
    have hran := ((backs_pathWalk walk).trans (backs_pathWalk walk')).trans (backs_renameIn run)
    exact (hran.trans (backs_finish drop)).trans (backs_finish drop')

theorem backs_readLink {r : Except Errno Name} (h : m.readLink d = some (m', r)) :
    Backs m m' := by
  obtain rfl | ⟨c, bs, ino, -, -, rfl⟩ := readLink_goes h
  · exact .refl _
  · exact (backs_setExt4 ..).trans (backs_mapInode ..)

theorem backs_readlink {path : Name} {r : Except Errno Name}
    (h : m.readlink path = some (m', r)) : Backs m m' := by
  cases readlink_goes h with
  | noName => exact .refl m
  | noWalk _ walk => exact backs_pathWalk walk
  | noTarget _ walk rel step rel' =>
    exact (((backs_pathWalk walk).trans (backs_release rel)).trans (backs_walkStep step)).trans
      (backs_release rel')
  | ran _ walk rel step link drop =>
    have hstep := ((backs_pathWalk walk).trans (backs_release rel)).trans (backs_walkStep step)
    exact (hstep.trans (backs_readLink link)).trans (backs_finish drop)

/-! ## Operations on open files -/

theorem backs_read {off count : ℕ} {r : Except Errno (List UInt8)}
    (h : m.read d off count = some (m', r)) : Backs m m' := by
  unfold read at h
  split at h
  · cases h
    exact .refl m
  · obtain ⟨⟨bs, ino⟩, -, heq⟩ := Option.map_eq_some_iff.mp h
    cases heq
    exact backs_setExt4 ..

theorem backs_write {off : ℕ} {data : List UInt8} {r : Except Errno ℕ}
    (h : m.write d off data = some (m', r)) : Backs m m' := by
  unfold write at h
  split at h
  · cases h
    exact .refl m
  · obtain ⟨⟨n, ino, fs⟩, -, heq⟩ := Option.map_eq_some_iff.mp h
    cases heq
    exact (backs_setFs m fs).trans (backs_setExt4 ..)

theorem backs_getdents {off count : ℕ} {r : Option (ℕ × List UInt8)}
    (h : m.getdents d off count = some (m', r)) : Backs m m' := by
  unfold getdents at h
  split at h
  · cases h
    exact .refl m
  · obtain ⟨⟨r', ino⟩, -, heq⟩ := Option.map_eq_some_iff.mp h
    cases heq
    exact backs_setExt4 ..

end Mount

/-! ## What a request does to the open files -/

variable {s s' s₁ s₂ : FsServer Mount ℕ} {r : Request} {resp : List UInt8} {path : String}
  {flags : UInt8} {fd d : ℕ} {f : File ℕ}

namespace FsServer

/-- The entries behind the descriptors. -/
def held (s : FsServer Mount ℕ) (fd : ℕ) : Option ℕ := (s.file 0 fd).map File.dentry

theorem held_setFile (h : s.file 0 fd = some f) (o : Option (File ℕ)) :
    (s.setFile 0 fd o).held = Function.update s.held fd (o.map File.dentry) := by
  funext gd
  rw [held, file_setFile_eq h]
  by_cases hgd : gd = fd
  · subst hgd
    rw [Function.update_self, Function.update_self]
  · rw [Function.update_of_ne hgd, Function.update_of_ne hgd, held]

/-- A cursor has moved. -/
theorem held_setPos (h : s.file 0 fd = some f) (pos : ℕ) :
    (s.setFile 0 fd (some { f with pos })).held = s.held := by
  have hself : some f.dentry = s.held fd := by
    rw [held, h, Option.map_some]
  rw [held_setFile h, Option.map_some]
  show Function.update s.held fd (some f.dentry) = s.held
  rw [hself, Function.update_eq_self]

/-- What a request may do to the entries in memory and the entries behind the descriptors. -/
inductive Serves (s : FsServer Mount ℕ) : Request → FsServer Mount ℕ → Prop
  | other {r : Request} {s' : FsServer Mount ℕ} (hvfs : s.vfs.Backs s'.vfs)
    (hheld : s'.held = s.held) : Serves s r s'
  | close {fd : BitVec 64} {s' : FsServer Mount ℕ} (hvfs : s.vfs.Backs s'.vfs)
    (hheld : s'.held = Function.update s.held fd.toNat none) : Serves s (.close fd) s'
  | opened {flags : UInt8} {path : String} {fd d : ℕ} {s' : FsServer Mount ℕ}
    (hopen : s.vfs.openPath path.toList flags = some (s'.vfs, .ok d)) (hfree : s.held fd = none)
    (hlt : fd < fdTableSize) (hheld : s'.held = Function.update s.held fd (some d)) :
    Serves s (.openFile flags path) s'

theorem openFile_serves {o : Except Errno ℕ} (h : s.openFile Mount.vfs 0 path flags = some (s', o)) :
    Serves s (.openFile flags path) s' := by
  have hsame (hfile : s'.file 0 = s.file 0) : s'.held = s.held := by
    funext gd
    rw [held, hfile, held]
  rcases openFile_cases Mount.vfs h with ⟨e, hopen, -, hfile⟩ | ⟨d, fid, hopen, -, hfree, hlt, hfile⟩ |
    ⟨m, d, hopen, hrelease, -, hfile, -⟩
  · exact .other (Mount.backs_openPath hopen) (hsame hfile)
  · refine .opened hopen (by rw [held, hfree]; rfl) hlt (funext fun gd => ?_)
    rw [held, hfile]
    by_cases hgd : gd = fid
    · subst hgd
      rw [Function.update_self, Function.update_self, Option.map_some]
    · rw [Function.update_of_ne hgd, Function.update_of_ne hgd, held]
  · exact .other ((Mount.backs_openPath hopen).trans (Mount.backs_release hrelease)) (hsame hfile)

/-- The file systems have changed, and at most a cursor with them. -/
theorem Moves.serves {m : Mount} (hmoves : Moves s m fd f s') (hf : s.file 0 fd = some f)
    (hm : s.vfs.Backs m) : Serves s r s' := by
  rcases hmoves with rfl | ⟨pos, rfl⟩
  · exact .other hm rfl
  · have hf' : FsServer.file { s with vfs := m } 0 fd = some f := hf
    exact .other hm (held_setPos hf' pos)

/-- **What a request does.** -/
theorem step_serves (h : s.step r = some s') : Serves s r s' := by
  cases step_goes h with
  | nothing => exact .other (.refl _) rfl
  | seeks hf pos => exact .other (.refl _) (held_setPos hf pos)
  | openFile hop => exact openFile_serves hop
  | @close fd f m hf rel =>
    have hf' : FsServer.file { s with vfs := m } 0 fd.toNat = some f := hf
    exact .close (Mount.backs_release rel) (held_setFile hf' none)
  | read hf op hmoves => exact hmoves.serves hf (Mount.backs_read op)
  | write hf op hmoves => exact hmoves.serves hf (Mount.backs_write op)
  | getdents hf op hmoves => exact hmoves.serves hf (Mount.backs_getdents op)
  | readlink op => exact .other (Mount.backs_readlink op) rfl
  | create op => exact .other (Mount.backs_create op) rfl
  | unlink op => exact .other (Mount.backs_unlink op) rfl
  | rename op => exact .other (Mount.backs_rename op) rfl

/-! ## Every open file has an inode -/

/-- Every open file has an inode. -/
def EveryInode (s : FsServer Mount ℕ) : Prop :=
  ∀ fd f, s.file 0 fd = some f → s.vfs.inodeAt f.dentry ≠ none

/-- The path leads to a negative entry. -/
def Missing (s : FsServer Mount ℕ) (path : String) : Prop :=
  ∃ m d parent, s.vfs.pathWalk path.toList = some (m, .ok (d, parent)) ∧ m.isNegative d = true

/-- No descriptor is free. -/
def Full (s : FsServer Mount ℕ) : Prop := ∀ fd < fdTableSize, s.file 0 fd ≠ none

/-- The references are in order, and no entry lacks its inode but for the negative ones. -/
structure Whole (s : FsServer Mount ℕ) : Prop where
  order : InOrder s
  backed : s.vfs.AllBacked

theorem everyInode_iff : EveryInode s ↔ ∀ fd d, s.held fd = some d → s.vfs.inodeAt d ≠ none := by
  constructor
  · intro h fd d hd
    obtain ⟨f, hf, rfl⟩ := Option.map_eq_some_iff.mp hd
    exact h fd f hf
  · intro h fd f hf
    exact h fd f.dentry (by rw [held, hf, Option.map_some])

/-- The entry of an open file is in memory. -/
theorem InOrder.live (h : InOrder s) (hd : s.held fd = some d) :
    ∃ D, s.vfs.dentries d = some D := by
  obtain ⟨f, hf, rfl⟩ := Option.map_eq_some_iff.mp hd
  exact Mount.Counted.live h (Multiset.mem_cons_of_mem (mem_openDentries hf))

/-- An entry has an inode just when it is not negative. -/
theorem Whole.inodeAt_iff (h : Whole s) {D : Dentry} (hD : s.vfs.dentries d = some D) :
    s.vfs.inodeAt d ≠ none ↔ s.vfs.isNegative d = false := by
  have hback : D.inode = none ↔ D.flags.contains .negative = true := h.backed.backed d D hD
  rw [Mount.inodeAt, Mount.isNegative, hD, Option.bind_some, Option.any_some, Ne, hback,
    Bool.not_eq_true]

theorem Whole.step (h : Whole s) (hs : s.step r = some s') : Whole s' := by
  refine ⟨h.order.step hs, ?_⟩
  cases step_serves hs with
  | other hvfs hheld => exact hvfs.all h.backed
  | close hvfs hheld => exact hvfs.all h.backed
  | opened hopen hfree hlt hheld => exact (Mount.backs_openPath hopen).all h.backed

/-- An entry that is held through a request keeps its inode. -/
theorem Whole.keeps (h : Whole s) (h' : Whole s') (hvfs : s.vfs.Backs s'.vfs) {gd : ℕ}
    (hd : s.held fd = some d) (hd' : s'.held gd = some d) (hi : s.vfs.inodeAt d ≠ none) :
    s'.vfs.inodeAt d ≠ none := by
  obtain ⟨D, hD⟩ := h.order.live hd
  obtain ⟨D', hD'⟩ := h'.order.live hd'
  obtain ⟨D₀, hD₀, hkeep⟩ := hvfs.old d (h.backed.bounded d D hD) D' hD'
  rw [Mount.inodeAt, hD₀, Option.bind_some] at hi
  rw [Mount.inodeAt, hD', Option.bind_some]
  exact hkeep hi

/-- What is opened is negative just when the path was missing. -/
theorem Whole.opened_inode (h : Whole s) (h' : Whole s')
    (hopen : s.vfs.openPath path.toList flags = some (s'.vfs, .ok d)) (hd : s'.held fd = some d) :
    s'.vfs.inodeAt d ≠ none ↔ ¬ s.Missing path := by
  obtain ⟨D', hD'⟩ := h'.order.live hd
  obtain ⟨m, parent, hwalk, hrelease⟩ := Mount.walk_of_openPath hopen
  have hroot : s.vfs.root ∈ s.vfs.root ::ₘ s.openDentries := Multiset.mem_cons_self _ _
  obtain ⟨m₂, -, hrelease', hsame, -⟩ := Mount.pathWalk_again h.order hroot hwalk
  obtain rfl : s'.vfs = m₂ := Option.some.inj (hrelease.symm.trans hrelease')
  rw [h'.inodeAt_iff hD', Mount.isNegative_of_shape hsame.shape, ← Bool.not_eq_true]
  refine not_congr ⟨fun hneg => ⟨m, d, parent, hwalk, hneg⟩, ?_⟩
  rintro ⟨m₁, d₁, parent₁, hwalk₁, hneg⟩
  cases hwalk.symm.trans hwalk₁
  exact hneg

/-- A missing path is opened with `O_CREAT` only. -/
theorem Whole.creat_of_missing (h : Whole s) (h' : Whole s')
    (hopen : s.vfs.openPath path.toList flags = some (s'.vfs, .ok d)) (hd : s'.held fd = some d)
    (hmissing : s.Missing path) : flags &&& Mount.oCreat = Mount.oCreat := by
  obtain ⟨D', hD'⟩ := h'.order.live hd
  refine Mount.creat_of_openPath hopen ?_
  rw [← Bool.not_eq_false]
  intro hpositive
  exact (h.opened_inode h' hopen hd).mp ((h'.inodeAt_iff hD').mpr hpositive) hmissing

end FsServer

/-- Not an `O_CREAT` of a missing path, unless there is no descriptor for it. -/
def Request.Plain (s : FsServer Mount ℕ) : Request → Prop
  | .openFile flags path => flags &&& Mount.oCreat = Mount.oCreat → s.Missing path → s.Full
  | _ => True

namespace FsServer

/-- **A step.**  The open files keep their inodes, and a new one has one unless the path was
missing. -/
theorem Whole.everyInode (h : Whole s) (hall : EveryInode s) (hplain : r.Plain s)
    (hs : s.step r = some s') : EveryInode s' := by
  have h' := h.step hs
  rw [everyInode_iff] at hall ⊢
  intro gd e he
  cases step_serves hs with
  | other hvfs hheld =>
    have hold := he
    rw [hheld] at hold
    exact h.keeps h' hvfs hold he (hall gd e hold)
  | @close fd _ hvfs hheld =>
    by_cases hgd : gd = fd.toNat
    · rw [hheld, hgd, Function.update_self] at he
      cases he
    · have hold := he
      rw [hheld, Function.update_of_ne hgd] at hold
      exact h.keeps h' hvfs hold he (hall gd e hold)
  | @opened flags path fd d _ hopen hfree hlt hheld =>
    by_cases hgd : gd = fd
    · subst hgd
      obtain rfl : d = e := by
        rw [hheld, Function.update_self] at he
        exact Option.some.inj he
      refine (h.opened_inode h' hopen he).mpr fun hmissing => ?_
      refine hplain (h.creat_of_missing h' hopen he hmissing) hmissing gd hlt ?_
      rwa [held, Option.map_eq_none_iff] at hfree
    · have hold := he
      rw [hheld, Function.update_of_ne hgd] at hold
      exact h.keeps h' (Mount.backs_openPath hopen) hold he (hall gd e hold)

/-- A path that is opened is so by a request. -/
theorem step_of_openFile {o : Except Errno ℕ}
    (h : s.openFile Mount.vfs 0 path flags = some (s', o)) :
    s.step (.openFile flags path) = some s' := by
  obtain ⟨resp, hresp⟩ : ∃ resp, respond (s', o) (fun fd => okResponse (BitVec.ofNat 64 fd) []) =
      some (s', resp) := by
    cases o with
    | error e =>
      obtain ⟨resp, hresp⟩ : ∃ resp, errResponse e = some resp := ⟨_, errResponse_eq e⟩
      exact ⟨resp, by simp only [respond, hresp, Option.map_some]⟩
    | ok fd =>
      obtain ⟨resp, hresp⟩ : ∃ resp, okResponse (BitVec.ofNat 64 fd) [] = some resp :=
        ⟨_, okResponse_eq (by simp)⟩
      exact ⟨resp, by simp only [respond, hresp, Option.map_some]⟩
  rw [FsServer.step, serve, h]
  simp only [Option.bind_eq_bind, Option.bind_some, hresp, Option.map_some]

/-- The entry behind a new descriptor. -/
theorem held_of_openFile {o : ℕ} (h : s.openFile Mount.vfs 0 path flags = some (s', .ok o)) :
    ∃ d, s.vfs.openPath path.toList flags = some (s'.vfs, .ok d) ∧ s.file 0 o = none ∧
      o < fdTableSize ∧ s'.held o = some d := by
  rcases openFile_cases Mount.vfs h with ⟨e, -, hr, -⟩ | ⟨d, fd, hopen, hr, hfree, hlt, hfile⟩ |
    ⟨m, d, -, -, hr, -⟩
  · cases hr
  · cases hr
    exact ⟨d, hopen, hfree, hlt, by rw [held, hfile, Function.update_self, Option.map_some]⟩
  · cases hr

/-- **A bad step.**  A descriptor for a missing path is opened, and has no inode. -/
theorem Whole.not_everyInode (h : Whole s) (hplain : ¬ r.Plain s) :
    ∃ s', s.step r = some s' ∧ ¬ EveryInode s' := by
  cases r with
  | openFile flags path =>
    obtain ⟨hcreat, hrest⟩ := Classical.not_imp.mp hplain
    obtain ⟨hmissing, hfull⟩ := Classical.not_imp.mp hrest
    obtain ⟨m, d, parent, hwalk, -⟩ := id hmissing
    have hroot : s.vfs.root ∈ s.vfs.root ::ₘ s.openDentries := Multiset.mem_cons_self _ _
    obtain ⟨m₂, -, hrelease, -⟩ := Mount.pathWalk_again h.order hroot hwalk
    have hopen : s.vfs.openPath path.toList flags = some (m₂, .ok d) := by
      rw [Mount.openPath, hwalk]
      simp only [Option.bind_eq_bind, Option.bind_some, hrelease]
      rw [if_neg fun hand => hand.2 hcreat]
      rfl
    have hfree : ∃ fd < fdTableSize, s.file 0 fd = none := by
      by_contra hno
      exact hfull fun fd hlt hnone => hno ⟨fd, hlt, hnone⟩
    obtain ⟨tables, fid, hopened⟩ := openFile_of_openPath hfree hopen
    have hstep := step_of_openFile hopened
    refine ⟨_, hstep, fun hall => ?_⟩
    obtain ⟨d', hopen', -, -, hd'⟩ := held_of_openFile hopened
    exact (h.opened_inode (h.step hstep) hopen' hd').mp (everyInode_iff.mp hall fid d' hd') hmissing
  | _ => exact absurd trivial hplain

/-! ## Runs -/

theorem whole_boot (volume : Volume) (attrs : ℕ → Ext4.InodeAttr) (checksumSeed : UInt32) :
    Whole (boot volume attrs checksumSeed) := by
  refine ⟨inOrder_boot volume attrs checksumSeed, (inv_boot volume attrs checksumSeed).bounded,
    fun d D hD => ?_⟩
  by_cases hd : d = 0
  · subst hd
    cases hD
    have hpositive : DentryFlags.directory.contains .negative = false := by decide
    exact iff_of_false (Option.some_ne_none _) (by rw [hpositive]; exact Bool.false_ne_true)
  · simp [boot, Mount.new, hd] at hD

/-- A descriptor that is not closed stays open. -/
theorem held_run {rs : List Request} (hclose : ∀ fd', .close fd' ∈ rs → fd'.toNat ≠ fd)
    (hd : s.held fd = some d) (hrun : rs.foldlM step s = some s') : s'.held fd = some d := by
  refine Run.foldlM_invariant (I := fun s : FsServer Mount ℕ => s.held fd = some d)
    (fun s₁ r s₂ hr h₁ hs => ?_) hd hrun
  cases step_serves hs with
  | other hvfs hheld => rwa [hheld]
  | close hvfs hheld => rwa [hheld, Function.update_of_ne (hclose _ hr).symm]
  | opened hopen hfree hlt hheld =>
    rw [hheld, Function.update_of_ne]
    · exact h₁
    · rintro rfl
      cases hfree.symm.trans h₁

/-- What is promised of the open files in a run: each has an inode; the metadata of what was opened
and not closed again are there; a missing path that was opened is there for the next one who asks
for it. -/
structure OpenSound (s₀ : FsServer Mount ℕ) (rs : List Request) : Prop where
  inode : ∀ pre, pre <+: rs → ∀ s, pre.foldlM step s₀ = some s → EveryInode s
  fstat : ∀ pre flags path mid, pre ++ .openFile flags path :: mid <+: rs → ∀ s s₁ s₂ fd,
    pre.foldlM step s₀ = some s → s.openFile Mount.vfs 0 path flags = some (s₁, .ok fd) →
      (∀ fd', .close fd' ∈ mid → fd'.toNat ≠ fd) → mid.foldlM step s₁ = some s₂ →
        ∃ size, s₂.fstat Mount.vfs 0 fd = .ok size
  created : ∀ pre flags path, pre ++ [.openFile flags path] <+: rs → ∀ s s₁ fd,
    pre.foldlM step s₀ = some s → s.Missing path →
      s.openFile Mount.vfs 0 path flags = some (s₁, .ok fd) →
        ∃ m d, s₁.vfs.openPath path.toList 0 = some (m, .ok d)

/-- **Every open file has an inode**, in every state of a run and for what is opened in it, just
when no `O_CREAT` takes a descriptor for a missing path. -/
theorem openSound_iff (volume : Volume) (attrs : ℕ → Ext4.InodeAttr) (checksumSeed : UInt32)
    (rs : List Request) :
    OpenSound (boot volume attrs checksumSeed) rs ↔
      Run.AlongSome step (fun s r => r.Plain s) (boot volume attrs checksumSeed) rs := by
  have hboot := whole_boot volume attrs checksumSeed
  have hinode : (∀ pre, pre <+: rs → ∀ s,
      pre.foldlM step (boot volume attrs checksumSeed) = some s → EveryInode s) ↔
      Run.AlongSome step (fun s r => r.Plain s) (boot volume attrs checksumSeed) rs :=
    Run.reached_iff_alongSome (fun s r s' h hs => h.step hs)
      (fun s r s' h hall hplain hs => h.everyInode hall hplain hs)
      (fun s r h hplain => h.not_everyInode hplain) hboot (fun fd f hf => nomatch hf) rs
  refine ⟨fun h => hinode.mp h.inode, fun halong => ⟨hinode.mpr halong, ?_, ?_⟩⟩
  · intro pre flags path mid hpre s s₁ s₂ fd hrun hopened hclose hmid
    obtain ⟨d, -, -, -, hd⟩ := held_of_openFile hopened
    obtain ⟨f, hf, rfl⟩ := Option.map_eq_some_iff.mp (held_run hclose hd hmid)
    have hrun₂ : (pre ++ .openFile flags path :: mid).foldlM step
        (boot volume attrs checksumSeed) = some s₂ := by
      rw [List.foldlM_append, hrun]
      simp only [Option.bind_eq_bind, Option.bind_some, List.foldlM_cons, step_of_openFile hopened,
        hmid]
    have hne := hinode.mpr halong _ hpre s₂ hrun₂ fd f hf
    obtain ⟨c, hc⟩ := Option.ne_none_iff_exists'.mp hne
    have hstat : (s₂.file 0 fd).bind (fun f => Mount.vfs.stat s₂.vfs f.dentry) =
        some (BitVec.ofNat 64 c.ext4.getSize) := by
      rw [hf, Option.bind_some]
      exact congrArg (Option.map _) hc
    exact ⟨BitVec.ofNat 64 c.ext4.getSize, by rw [FsServer.fstat, hstat]⟩
  · intro pre flags path hpre s s₁ fd hrun hmissing hopened
    obtain ⟨post, rfl⟩ := hpre
    obtain ⟨d, hopen, hfree, hlt, hd⟩ := held_of_openFile hopened
    rw [List.append_assoc] at halong
    have hplain : Request.Plain s (.openFile flags path) := halong.mid hrun
    have hwhole : Whole s :=
      Run.foldlM_invariant (I := Whole) (fun _ _ _ _ h hs => h.step hs) hboot hrun
    have hcreat := hwhole.creat_of_missing (hwhole.step (step_of_openFile hopened)) hopen hd hmissing
    exact absurd hfree (hplain hcreat hmissing fd hlt)

/-- On a volume without `/g`, the path is opened with `O_CREAT` all the same; the descriptor has no
metadata, and without the flag the path is still not there. -/
theorem creat_opens_nothing : ¬ OpenSound oneFileBoot [.openFile 0x40 "/g"] ∧
    (oneFileBoot.openFile Mount.vfs 0 "/g" 0x40).map (fun p => (p.2.toOption,
      (p.1.fstat Mount.vfs 0 0).toOption, (p.1.openFile Mount.vfs 0 "/g" 0).map fun q =>
        q.2.toOption)) = some (some 0, none, some none) := by
  have hrun : (oneFileBoot.openFile Mount.vfs 0 "/g" 0x40).map (fun p => (p.2.toOption,
      (p.1.fstat Mount.vfs 0 0).toOption, (p.1.openFile Mount.vfs 0 "/g" 0).map fun q =>
        q.2.toOption)) = some (some 0, none, some none) := by
    decide +kernel
  refine ⟨fun h => ?_, hrun⟩
  obtain ⟨⟨s₁, o⟩, hopen, heq⟩ := Option.map_eq_some_iff.mp hrun
  simp only [Prod.mk.injEq] at heq
  obtain ⟨ho, hstat, -⟩ := heq
  cases o with
  | error e => cases ho
  | ok fd =>
    obtain rfl : fd = 0 := Option.some.inj ho
    obtain ⟨size, hsize⟩ := h.fstat [] 0x40 "/g" [] (List.prefix_refl _) oneFileBoot s₁ s₁ 0 rfl
      hopen (fun _ hmem => (List.not_mem_nil hmem).elim) rfl
    rw [hsize] at hstat
    cases hstat

end FsServer

end QuackOS.Fs
