import QuackOS.Ext4.DirDeletion
import QuackOS.Fs.Image
import QuackOS.Fs.Backing

/-!
# The mount and the files it shows

The entries in memory, their inodes and the volume below them show one store of byte sequences:
an inode in memory shows its file, a file that is not in memory is its record on the volume, and
an entry in memory is what the bytes of its parent have under its name.

* `Mirrors` — the files of a mount, wherever they are; an inode that leaves memory is in limbo
  until it is written back;
* `Shows` — they hold a store, and the entries agree with the names in it;
* `Shows.read`, `write`, `release`, `newDentry` — one change of the mount;
* `Shows.walkStep`, `pathWalk`, `openPath` — a path leads to what `resolve` finds.
-/

namespace QuackOS.Fs

open Ext4 (Name Ext4Inode Ext4FileSystem Ext4DirEntry InodeAttr World FileStore FileData
  FileRequest FileAnswer)

namespace Mount

/-- Whether a number is one of a directory. -/
def isDirNum (attrs : ℕ → InodeAttr) (n : ℕ) : Bool :=
  (DentryFlags.ofMode (attrs n).mode).contains .directory

/-- The flags of an entry say what its inode is. -/
def Dentry.Fits (attrs : ℕ → InodeAttr) (D : Dentry) : Prop :=
  match D.inode with
  | none => D.flags.contains .negative = true ∧ D.flags.contains .directory = false
  | some c => D.flags.contains .negative = false ∧
      D.flags.contains .directory = isDirNum attrs c.ext4.inodeNum

/-- The files in use, wherever they are: in memory, on their way out of it, or on the volume. -/
structure Mirrors (live : Finset ℕ) (limbo : ℕ → Option Ext4Inode) (m : Mount) (w : World) :
    Prop where
  fs : w.fs = m.volume.fs
  memory : ∀ d c, m.inodeAt d = some c → w.files c.ext4.inodeNum = some c.ext4
  leaving : ∀ n ino, limbo n = some ino → w.files n = some ino ∧ m.Absent n
  disk : ∀ n ∈ live, m.Absent n → limbo n = none →
    w.files n = some (Ext4Inode.loadInode m.volume.fs n)
  dead : ∀ n ∉ live, w.files n = none
  number : ∀ n ino, w.files n = some ino → ino.inodeNum = n

/-- **The mount shows a store.** -/
structure Shows (live : Finset ℕ) (attrs : ℕ → InodeAttr) (limbo : ℕ → Option Ext4Inode)
    (m : Mount) (w : World) (a : FileStore) : Prop where
  mirrors : Mirrors live limbo m w
  inv : m.Inv
  stores : w.Stores a
  linked : ∀ n f, a n = some f → f.links ≠ 0
  modes : m.attrs = attrs
  attr : ∀ d c, m.inodeAt d = some c → c.attr = attrs c.ext4.inodeNum
  fits : ∀ d D, m.dentries d = some D → Dentry.Fits attrs D
  named : ∀ p P name c, m.dentries p = some P → P.children name = some c →
    m.dentries c ≠ none → ∃ n, m.num p = some n ∧ child a n name = some (m.num c)

variable {live : Finset ℕ} {attrs : ℕ → InodeAttr} {limbo : ℕ → Option Ext4Inode}
  {m m' : Mount} {w w' : World} {a : FileStore} {d e n : ℕ} {name : Name} {c : CachedInode}
  {refs : Multiset ℕ}

theorem child_of_file {f : FileData} (h : a n = some f) (name : Name) :
    child a n name = Ext4.numberOf f.bytes name := by
  rw [child, h, Option.bind_some]
  rfl

theorem child_put (a : FileStore) (i : ℕ) (f : FileData) (n : ℕ) (name : Name) :
    child (a.put i (some f)) n name =
      if n = i then Ext4.numberOf f.bytes name else child a n name := by
  split
  · rename_i hn
    exact child_of_file (by rw [FileStore.put, hn, Function.update_self]) name
  · rename_i hn
    rw [child, child, FileStore.put, Function.update_of_ne hn]

/-! ## Changes that are no matter of inodes -/

theorem num_of_inodeAt (h : m.inodeAt d = some c) : m.num d = some c.ext4.inodeNum := by
  rw [num, h, Option.map_some]

theorem Mirrors.congr (h : Mirrors live limbo m w) (hin : m'.inodeAt = m.inodeAt)
    (hfs : m'.volume.fs = m.volume.fs) : Mirrors live limbo m' w := by
  have hnum : m'.num = m.num := by
    funext e
    rw [num, num, hin]
  have habsent : ∀ n, m'.Absent n ↔ m.Absent n := fun n => by rw [Absent, Absent, hnum]
  refine ⟨h.fs.trans hfs.symm, ?_, ?_, ?_, h.dead, h.number⟩
  · rw [hin]
    exact h.memory
  · intro n ino hn
    rw [habsent]
    exact h.leaving n ino hn
  · intro n hn habs hlimbo
    rw [hfs]
    exact h.disk n hn ((habsent n).mp habs) hlimbo

/-- An entry changes, with the same inode and flags, and children that are there. -/
theorem Shows.modify (h : Shows live attrs limbo m w a) {f : Dentry → Dentry}
    (hf : ∀ D, (f D).inode = D.inode ∧ (f D).flags = D.flags)
    (hchild : ∀ D, m.dentries d = some D → ∀ name e, (f D).children name = some e →
      m.dentries e ≠ none →
      D.children name = some e ∨ ∃ n, m.num d = some n ∧ child a n name = some (m.num e)) :
    Shows live attrs limbo (m.modify d f) w a := by
  have hin : (m.modify d f).inodeAt = m.inodeAt := funext fun e => by
    apply inodeAt_modify
    intro D
    exact (hf D).1
  have hnum : (m.modify d f).num = m.num := by
    funext e
    rw [num, num, hin]
  have hsome : ∀ e, (m.modify d f).dentries e ≠ none → m.dentries e ≠ none := by
    intro e he hnone
    rw [dentries_modify] at he
    split at he
    · rename_i hed
      rw [← hed, hnone] at he
      exact he rfl
    · exact he hnone
  refine ⟨h.mirrors.congr hin rfl, ?_, h.stores, h.linked, h.modes, ?_, ?_, ?_⟩
  · have hsteps : Steps ∅ m (m.modify d f) := by
      apply modify_steps
      intro D
      exact (hf D).1
    exact hsteps.inv h.inv
  · rw [hin]
    exact h.attr
  · intro e E' hE'
    rw [dentries_modify] at hE'
    split at hE'
    · obtain ⟨D, hD, rfl⟩ := Option.map_eq_some_iff.mp hE'
      have := h.fits d D hD
      rwa [Dentry.Fits, (hf D).1, (hf D).2]
    · exact h.fits e E' hE'
  · intro p P' name c hP' hc hlive
    rw [hnum]
    rw [dentries_modify] at hP'
    split at hP'
    · rename_i hpd
      obtain ⟨D, hD, rfl⟩ := Option.map_eq_some_iff.mp hP'
      rcases hchild D hD name c hc (hsome c hlive) with hold | hnew
      · rw [hpd]
        exact h.named d D name c hD hold (hsome c hlive)
      · rwa [hpd]
    · exact h.named p P' name c hP' hc (hsome c hlive)

theorem Shows.clone (h : Shows live attrs limbo m w a) (d : ℕ) :
    Shows live attrs limbo (m.clone d) w a :=
  h.modify (fun _ => ⟨rfl, rfl⟩) fun _ _ _ _ hc _ => Or.inl hc

theorem Shows.insertChild (h : Shows live attrs limbo m w a)
    (hchild : m.num d = some n ∧ child a n name = some (m.num e)) :
    Shows live attrs limbo (m.insertChild d name e) w a := by
  refine h.modify (fun _ => ⟨rfl, rfl⟩) fun D _ name' e' he' _ => ?_
  by_cases hname : name' = name
  · subst hname
    dsimp only at he'
    rw [Function.update_self] at he'
    cases he'
    exact Or.inr ⟨n, hchild⟩
  · dsimp only at he'
    rw [Function.update_of_ne hname] at he'
    exact Or.inl he'

theorem Shows.lookupChild (h : Shows live attrs limbo m w a) {r : Option ℕ}
    (hl : m.lookupChild d name = (m', r)) : Shows live attrs limbo m' w a ∧
      ∀ e, r = some e → ∃ n, m'.num d = some n ∧ child a n name = some (m'.num e) := by
  have hnum : m'.num = m.num := by
    funext e
    rw [num, num, inodeAt_lookupChild hl]
  unfold Mount.lookupChild at hl
  split at hl
  · cases hl
    exact ⟨h, fun e he => by cases he⟩
  · rename_i e hchild
    obtain ⟨D, hD, hDc⟩ := Option.bind_eq_some_iff.mp hchild
    split at hl
    · rename_i E hE
      cases hl
      refine ⟨h.clone e, fun e' he' => ?_⟩
      cases he'
      rw [hnum]
      exact h.named d D name e hD hDc (by rw [hE]; exact Option.some_ne_none E)
    · cases hl
      refine ⟨h.modify (fun _ => ⟨rfl, rfl⟩) fun D _ name' e' he' _ => ?_, fun e he => by cases he⟩
      by_cases hname : name' = name
      · subst hname
        simp at he'
      · dsimp only at he'
        rw [Function.update_of_ne hname] at he'
        exact Or.inl he'

/-! ## Calls on inodes -/

theorem inode_live (h : Mirrors live limbo m w) (hc : m.inodeAt d = some c) :
    c.ext4.inodeNum ∈ live := by
  by_contra hdead
  have := h.memory d c hc
  rw [h.dead _ hdead] at this
  cases this

theorem limbo_of_inodeAt (h : Mirrors live limbo m w) (hc : m.inodeAt d = some c) :
    limbo c.ext4.inodeNum = none := by
  cases hlimbo : limbo c.ext4.inodeNum with
  | none => rfl
  | some ino => exact absurd (num_of_inodeAt hc) ((h.leaving _ ino hlimbo).2 d)

/-- The inode of an entry is changed by a call that leaves the records of the others alone. -/
theorem Mirrors.put (h : Mirrors live limbo m w) (hinv : m.Inv) (hc : m.inodeAt d = some c)
    {ino : Ext4Inode} (hnum : ino.inodeNum = c.ext4.inodeNum) {fs' : Ext4FileSystem}
    (htable : fs'.inodeTable = m.volume.fs.inodeTable) :
    Mirrors live limbo ((m.setFs fs').setExt4 d ino) (w.put c.ext4.inodeNum (some ino) fs') := by
  have hc' : (m.setFs fs').inodeAt d = some c := hc
  have hnums : ((m.setFs fs').setExt4 d ino).num = m.num := num_setExt4 hc' hnum
  have habsent : ∀ n, ((m.setFs fs').setExt4 d ino).Absent n ↔ m.Absent n := fun n => by
    rw [Absent, Absent, hnums]
  have hnot : ∀ n, m.Absent n → n ≠ c.ext4.inodeNum := by
    rintro n hn rfl
    exact hn d (num_of_inodeAt hc)
  refine ⟨rfl, fun e c' he => ?_, fun n jno hn => ?_, fun n hn habs hlimbo => ?_,
    fun n hn => ?_, fun n jno hn => ?_⟩
  · rw [inodeAt_setExt4] at he
    rw [World.files_put]
    split at he
    · rw [hc', Option.map_some] at he
      cases he
      rw [if_pos hnum]
    · rename_i hed
      rw [if_neg]
      · exact h.memory e c' he
      · intro hsame
        have hnumE : m.num e = some c'.ext4.inodeNum := num_of_inodeAt he
        rw [hsame] at hnumE
        exact hed (hinv.one e d _ hnumE (num_of_inodeAt hc))
  · obtain ⟨hfile, habs⟩ := h.leaving n jno hn
    rw [World.files_put, if_neg (hnot n habs), habsent]
    exact ⟨hfile, habs⟩
  · have habs' := (habsent n).mp habs
    rw [World.files_put, if_neg (hnot n habs'), h.disk n hn habs' hlimbo]
    show some (Ext4Inode.loadInode m.volume.fs n) = some (Ext4Inode.loadInode fs' n)
    rw [Ext4Inode.loadInode, Ext4Inode.loadInode, htable]
  · rw [World.files_put, if_neg, h.dead n hn]
    rintro rfl
    exact hn (inode_live h hc)
  · rw [World.files_put] at hn
    split at hn
    · rename_i hnc
      cases hn
      rw [hnum, hnc]
    · exact h.number n jno hn

/-- The inode of an entry is changed, and its file with it; what the entries are named after
stays. -/
theorem Shows.setExt4 (h : Shows live attrs limbo m w a) (hc : m.inodeAt d = some c)
    {ino : Ext4Inode} (hnum : ino.inodeNum = c.ext4.inodeNum) {fs' : Ext4FileSystem}
    (htable : fs'.inodeTable = m.volume.fs.inodeTable) {a' : FileStore}
    (hstores : (w.put c.ext4.inodeNum (some ino) fs').Stores a')
    (hlinked : ∀ n f, a' n = some f → f.links ≠ 0)
    (hchild : ∀ p P name e, m.dentries p = some P → P.children name = some e →
      m.dentries e ≠ none → ∀ n, m.num p = some n → child a' n name = child a n name) :
    Shows live attrs limbo ((m.setFs fs').setExt4 d ino)
      (w.put c.ext4.inodeNum (some ino) fs') a' := by
  have hc' : (m.setFs fs').inodeAt d = some c := hc
  have hnums : ((m.setFs fs').setExt4 d ino).num = m.num := num_setExt4 hc' hnum
  -- the entries are the same, but for one inode
  have hentry : ∀ e E', ((m.setFs fs').setExt4 d ino).dentries e = some E' →
      ∃ E, m.dentries e = some E ∧ E'.children = E.children ∧ E'.flags = E.flags ∧
        E'.inode.map (fun c => c.ext4.inodeNum) = E.inode.map fun c => c.ext4.inodeNum := by
    intro e E' hE'
    have hnumE : E'.inode.map (fun c => c.ext4.inodeNum) = m.num e := by
      rw [← hnums, num, inodeAt, hE', Option.bind_some]
    rw [Mount.setExt4, dentries_modify] at hE'
    split at hE'
    · rename_i hed
      obtain ⟨E, hE, rfl⟩ := Option.map_eq_some_iff.mp hE'
      subst hed
      exact ⟨E, hE, rfl, rfl, by rw [hnumE, num, inodeAt, show m.dentries e = some E from hE,
        Option.bind_some]⟩
    · exact ⟨E', hE', rfl, rfl, rfl⟩
  refine ⟨h.mirrors.put h.inv hc hnum htable, ?_, hstores, hlinked, h.modes, ?_, ?_, ?_⟩
  · refine ⟨fun e E' hE' => ?_, fun e e' n he he' => ?_⟩
    · obtain ⟨E, hE, -⟩ := hentry e E' hE'
      exact h.inv.bounded e E hE
    · rw [hnums] at he he'
      exact h.inv.one e e' n he he'
  · intro e c' he
    rw [inodeAt_setExt4] at he
    split at he
    · rw [hc', Option.map_some] at he
      cases he
      dsimp only
      rw [hnum]
      exact h.attr d c hc
    · exact h.attr e c' he
  · intro e E' hE'
    obtain ⟨E, hE, -, hflags, hino⟩ := hentry e E' hE'
    have hfits := h.fits e E hE
    unfold Dentry.Fits at hfits ⊢
    rw [hflags]
    cases hold : E.inode with
    | none =>
      rw [hold, Option.map_none, Option.map_eq_none_iff] at hino
      rw [hold] at hfits
      rw [hino]
      exact hfits
    | some c₁ =>
      rw [hold, Option.map_some] at hino
      obtain ⟨c₂, hc₂, hn⟩ := Option.map_eq_some_iff.mp hino
      rw [hold] at hfits
      rw [hc₂]
      dsimp only at hfits ⊢
      rw [hn]
      exact hfits
  · intro p P' name e hP' he hlive
    obtain ⟨P, hP, hchildren, -⟩ := hentry p P' hP'
    rw [hchildren] at he
    have hlive' : m.dentries e ≠ none := by
      intro hnone
      obtain ⟨E', hE'⟩ := Option.ne_none_iff_exists'.mp hlive
      obtain ⟨E, hE, -⟩ := hentry e E' hE'
      rw [hnone] at hE
      cases hE
    obtain ⟨n, hn, hfound⟩ := h.named p P name e hP he hlive'
    rw [hnums]
    exact ⟨n, hn, (hchild p P name e hP he hlive' n hn).trans hfound⟩

/-- **The inode of an entry is read**: the bytes are those of its file, and nothing but its page
cache has changed. -/
theorem Shows.read (h : Shows live attrs limbo m w a) (hc : m.inodeAt d = some c) {off k : ℕ}
    {bs : List (BitVec 8)} {ino : Ext4Inode}
    (hread : c.ext4.read m.volume.fs off k = some (bs, ino)) :
    ∃ w' f, Shows live attrs limbo (m.setExt4 d ino) w' a ∧ (w.Flushable → w'.Flushable) ∧
      w.Carries w' ∧ a c.ext4.inodeNum = some f ∧ bs = Contents.read off k f.bytes := by
  have hmem := h.mirrors.memory d c hc
  have hserve : w.serve (.read c.ext4.inodeNum off k) =
      some (.bytes bs, w.put c.ext4.inodeNum (some ino) m.volume.fs) := by
    simp only [World.serve, hmem]
    rw [h.mirrors.fs, hread, Option.map_some]
  have hfaith : w.Faithful (.read c.ext4.inodeNum off k) := trivial
  obtain ⟨a', ha', hstores⟩ := World.serve_simulates w a _ _ _ h.stores hfaith hserve
  obtain ⟨f, hf, -⟩ := h.stores.file _ _ hmem
  simp only [FileStore.serve, hf, Option.some.injEq, Prod.mk.injEq, FileAnswer.bytes.injEq] at ha'
  obtain ⟨hbs, rfl⟩ := ha'
  have hnum : ino.inodeNum = c.ext4.inodeNum := (Ext4Inode.read_kept hread).inodeNum
  have hcarries : w.Carries (w.put c.ext4.inodeNum (some ino) m.volume.fs) := by
    rw [← h.mirrors.fs]
    refine World.carries_of_step h.stores.consistent hmem fun R ho => ?_
    rw [Ext4Inode.read_inodeOnDisk hread]
    exact .refl ho
  exact ⟨_, f, h.setExt4 hc hnum rfl hstores h.linked fun _ _ _ _ _ _ _ _ _ => rfl,
    fun hflush => hflush.read hserve, hcarries, hf, hbs.symm⟩

/-- **The inode of an entry is written to**, and its bytes keep the names in memory. -/
theorem Shows.writeAt (h : Shows live attrs limbo m w a) (hc : m.inodeAt d = some c) {off k : ℕ}
    {buf : List (BitVec 8)} {ino : Ext4Inode} {fs' : Ext4FileSystem} {f : FileData}
    (hwrite : c.ext4.write m.volume.fs off buf = some (k, ino, fs'))
    (hend : off + buf.length < 2 ^ 32) (hf : a c.ext4.inodeNum = some f)
    (hnames : ∀ D name e, m.dentries d = some D → D.children name = some e →
      m.dentries e ≠ none →
      Ext4.numberOf (Contents.write 0 off buf f.bytes) name = Ext4.numberOf f.bytes name) :
    Shows live attrs limbo ((m.setFs fs').setExt4 d ino) (w.put c.ext4.inodeNum (some ino) fs')
        (a.put c.ext4.inodeNum (some { f with bytes := Contents.write 0 off buf f.bytes })) ∧
      k = buf.length ∧ w.Carries (w.put c.ext4.inodeNum (some ino) fs') := by
  have hmem := h.mirrors.memory d c hc
  have hwrite' : c.ext4.write w.fs off buf = some (k, ino, fs') := by
    rw [h.mirrors.fs]
    exact hwrite
  have hserve : w.serve (.write c.ext4.inodeNum off buf) =
      some (.count k, w.put c.ext4.inodeNum (some ino) fs') := by
    simp only [World.serve, hmem]
    rw [hwrite', Option.map_some]
  have hfaith : w.Faithful (.write c.ext4.inodeNum off buf) := hend
  obtain ⟨a', ha', hstores⟩ := World.serve_simulates w a _ _ _ h.stores hfaith hserve
  simp only [FileStore.serve, hf, Option.some.injEq, Prod.mk.injEq, FileAnswer.count.injEq] at ha'
  obtain ⟨hk, rfl⟩ := ha'
  have hnum : ino.inodeNum = c.ext4.inodeNum := (Ext4Inode.write_spec hwrite).2.inodeNum
  refine ⟨h.setExt4 hc hnum (Ext4Inode.inodeTable_write hwrite) hstores ?_ ?_, hk.symm,
    World.carries_of_step h.stores.consistent hmem fun R ho => ho.write hwrite'⟩
  · intro n g hg
    rw [FileStore.put] at hg
    by_cases hn : n = c.ext4.inodeNum
    · subst hn
      rw [Function.update_self] at hg
      cases hg
      exact h.linked _ f hf
    · rw [Function.update_of_ne hn] at hg
      exact h.linked n g hg
  · intro p P name e hP he hlive n hn
    by_cases hne : n = c.ext4.inodeNum
    · subst hne
      obtain rfl := h.inv.one p d _ hn (num_of_inodeAt hc)
      rw [child_put, if_pos rfl, child_of_file hf]
      exact hnames P name e hP he hlive
    · rw [child_put, if_neg hne]

/-- **The inode of an entry is written to**, and no name in memory comes from its bytes. -/
theorem Shows.write (h : Shows live attrs limbo m w a) (hc : m.inodeAt d = some c) {off k : ℕ}
    {buf : List (BitVec 8)} {ino : Ext4Inode} {fs' : Ext4FileSystem}
    (hwrite : c.ext4.write m.volume.fs off buf = some (k, ino, fs'))
    (hend : off + buf.length < 2 ^ 32)
    (hleaf : ∀ D name e, m.dentries d = some D → D.children name = some e → m.dentries e = none) :
    ∃ w' f, Shows live attrs limbo ((m.setFs fs').setExt4 d ino) w'
        (a.put c.ext4.inodeNum (some { f with bytes := Contents.write 0 off buf f.bytes })) ∧
      a c.ext4.inodeNum = some f ∧ k = buf.length := by
  obtain ⟨f, hf, -⟩ := h.stores.file _ _ (h.mirrors.memory d c hc)
  obtain ⟨hshows, hk, -⟩ := h.writeAt hc hwrite hend hf fun D name e hD he hlive =>
    absurd (hleaf D name e hD he) hlive
  exact ⟨_, f, hshows, hf, hk⟩

/-! ## Entries that come and go -/

theorem num_none_of_dead (h : m.dentries d = none) : m.num d = none := by
  rw [num, inodeAt, h, Option.bind_none, Option.map_none]

/-- An inode as it comes from the volume, for a file that was not in memory. -/
def Fresh (live : Finset ℕ) (attrs : ℕ → InodeAttr) (limbo : ℕ → Option Ext4Inode) (m : Mount)
    (c : CachedInode) : Prop :=
  c.ext4 = Ext4Inode.loadInode m.volume.fs c.ext4.inodeNum ∧ c.attr = attrs c.ext4.inodeNum ∧
    c.ext4.inodeNum ∈ live ∧ m.Absent c.ext4.inodeNum ∧ limbo c.ext4.inodeNum = none

/-- An entry without children is added. -/
theorem Shows.add (h : Shows live attrs limbo m w a)
    (hchildren : ∀ p P name e, m.dentries p = some P → P.children name = some e → e < m.nextDentry)
    {D : Dentry} (hnone : ∀ name, D.children name = none) (hfits : Dentry.Fits attrs D)
    (hinode : ∀ c, D.inode = some c → m.Fresh live attrs limbo c)
    (hd : m'.dentries = Function.update m.dentries m.nextDentry (some D))
    (hn : m'.nextDentry = m.nextDentry + 1) (hfs : m'.volume.fs = m.volume.fs)
    (hattrs : m'.attrs = m.attrs) :
    Shows live attrs limbo m' w a ∧ m'.num m.nextDentry = (D.inode.map fun c => c.ext4.inodeNum) ∧
      ∀ x ≠ m.nextDentry, m'.num x = m.num x := by
  have hself : m'.dentries m.nextDentry = some D := by rw [hd, Function.update_self]
  have hother : ∀ x ≠ m.nextDentry, m'.dentries x = m.dentries x := fun x hx => by
    rw [hd, Function.update_of_ne hx]
  have hin : ∀ x ≠ m.nextDentry, m'.inodeAt x = m.inodeAt x := fun x hx => by
    rw [inodeAt, inodeAt, hother x hx]
  have hnum : ∀ x ≠ m.nextDentry, m'.num x = m.num x := fun x hx => by rw [num, num, hin x hx]
  have hnew : m'.num m.nextDentry = D.inode.map fun c => c.ext4.inodeNum := by
    rw [num, inodeAt, hself, Option.bind_some]
  have hold : m.dentries m.nextDentry = none := by
    cases hx : m.dentries m.nextDentry with
    | none => rfl
    | some X => exact absurd (h.inv.bounded _ X hx) (Nat.lt_irrefl _)
  have habsent : ∀ n, m'.Absent n → m.Absent n := by
    intro n habs x hx
    by_cases hxe : x = m.nextDentry
    · rw [hxe, num_none_of_dead hold] at hx
      cases hx
    · exact habs x (by rwa [hnum x hxe])
  have hfresh : ∀ n, m'.num m.nextDentry = some n → m.Absent n ∧ limbo n = none := by
    intro n hn
    rw [hnew] at hn
    obtain ⟨c, hc, rfl⟩ := Option.map_eq_some_iff.mp hn
    obtain ⟨-, -, -, habs, hlimbo⟩ := hinode c hc
    exact ⟨habs, hlimbo⟩
  refine ⟨⟨⟨h.mirrors.fs.trans hfs.symm, ?_, ?_, ?_, h.mirrors.dead, h.mirrors.number⟩, ⟨?_, ?_⟩,
    h.stores, h.linked, hattrs.trans h.modes, ?_, ?_, ?_⟩, hnew, hnum⟩
  · intro x c hx
    by_cases hxe : x = m.nextDentry
    · rw [hxe, inodeAt, hself, Option.bind_some] at hx
      obtain ⟨hload, -, hlive, habs, hlimbo⟩ := hinode c hx
      rw [h.mirrors.disk _ hlive habs hlimbo, ← hload]
    · rw [hin x hxe] at hx
      exact h.mirrors.memory x c hx
  · intro n ino hlimbo
    obtain ⟨hfile, habs⟩ := h.mirrors.leaving n ino hlimbo
    refine ⟨hfile, fun x hx => ?_⟩
    by_cases hxe : x = m.nextDentry
    · rw [hxe] at hx
      rw [(hfresh n hx).2] at hlimbo
      cases hlimbo
    · rw [hnum x hxe] at hx
      exact habs x hx
  · intro n hlive habs hlimbo
    rw [hfs]
    exact h.mirrors.disk n hlive (habsent n habs) hlimbo
  · intro x X hX
    rw [hn]
    by_cases hxe : x = m.nextDentry
    · omega
    · rw [hother x hxe] at hX
      have := h.inv.bounded x X hX
      omega
  · exact fun x y n => one_of_update h.inv.one hnum (fun n hn => Or.inr (hfresh n hn).1) x y
  · intro x c hx
    by_cases hxe : x = m.nextDentry
    · rw [hxe, inodeAt, hself, Option.bind_some] at hx
      exact (hinode c hx).2.1
    · rw [hin x hxe] at hx
      exact h.attr x c hx
  · intro x X hX
    by_cases hxe : x = m.nextDentry
    · rw [hxe, hself] at hX
      cases hX
      exact hfits
    · rw [hother x hxe] at hX
      exact h.fits x X hX
  · intro p P name e hP he hlive
    by_cases hpe : p = m.nextDentry
    · rw [hpe, hself] at hP
      cases hP
      rw [hnone] at he
      cases he
    · rw [hother p hpe] at hP
      have hne : e ≠ m.nextDentry := (hchildren p P name e hP he).ne
      rw [hother e hne] at hlive
      rw [hnum p hpe, hnum e hne]
      exact h.named p P name e hP he hlive

/-- **An entry leaves memory**; its inode is in limbo until it is written back. -/
theorem Shows.remove (h : Shows live attrs limbo m w a) (d : ℕ) :
    Shows live attrs ((m.inodeAt d).elim limbo fun c =>
        Function.update limbo c.ext4.inodeNum (some c.ext4))
      { m with dentries := Function.update m.dentries d none } w a := by
  set m' : Mount := { m with dentries := Function.update m.dentries d none } with hm'
  have hother : ∀ x ≠ d, m'.dentries x = m.dentries x := fun x hx => Function.update_of_ne hx ..
  have hself : m'.dentries d = none := Function.update_self ..
  have hin : ∀ x ≠ d, m'.inodeAt x = m.inodeAt x := fun x hx => by
    rw [inodeAt, inodeAt, hother x hx]
  have hnum : ∀ x ≠ d, m'.num x = m.num x := fun x hx => by rw [num, num, hin x hx]
  have hnumd : m'.num d = none := num_none_of_dead hself
  have hsub : ∀ x n, m'.num x = some n → x ≠ d ∧ m.num x = some n := by
    intro x n hx
    by_cases hxd : x = d
    · rw [hxd, hnumd] at hx
      cases hx
    · exact ⟨hxd, by rwa [← hnum x hxd]⟩
  have habsent : ∀ n, m.Absent n → m'.Absent n := fun n habs x hx => habs x (hsub x n hx).2
  refine ⟨⟨h.mirrors.fs, ?_, ?_, ?_, h.mirrors.dead, h.mirrors.number⟩, ⟨?_, ?_⟩, h.stores,
    h.linked, h.modes, ?_, ?_, ?_⟩
  · intro x c hx
    have hxd := (hsub x _ (num_of_inodeAt hx)).1
    rw [hin x hxd] at hx
    exact h.mirrors.memory x c hx
  · intro n ino hn
    cases hd : m.inodeAt d with
    | none =>
      rw [hd] at hn
      obtain ⟨hfile, habs⟩ := h.mirrors.leaving n ino hn
      exact ⟨hfile, habsent n habs⟩
    | some c =>
      rw [hd, Option.elim_some] at hn
      by_cases hnc : n = c.ext4.inodeNum
      · subst hnc
        rw [Function.update_self] at hn
        cases hn
        refine ⟨h.mirrors.memory d c hd, fun x hx => ?_⟩
        obtain ⟨hxd, hx⟩ := hsub x _ hx
        exact hxd (h.inv.one x d _ hx (num_of_inodeAt hd))
      · rw [Function.update_of_ne hnc] at hn
        obtain ⟨hfile, habs⟩ := h.mirrors.leaving n ino hn
        exact ⟨hfile, habsent n habs⟩
  · intro n hlive habs hlimbo
    -- what was not in memory before, and is not on its way out now
    have hold : m.Absent n ∧ limbo n = none := by
      cases hd : m.inodeAt d with
      | none =>
        rw [hd] at hlimbo
        refine ⟨fun x hx => ?_, hlimbo⟩
        by_cases hxd : x = d
        · rw [hxd, num, hd] at hx
          cases hx
        · exact habs x (by rwa [hnum x hxd])
      | some c =>
        rw [hd, Option.elim_some] at hlimbo
        have hnc : n ≠ c.ext4.inodeNum := by
          rintro rfl
          rw [Function.update_self] at hlimbo
          cases hlimbo
        rw [Function.update_of_ne hnc] at hlimbo
        refine ⟨fun x hx => ?_, hlimbo⟩
        by_cases hxd : x = d
        · rw [hxd, num_of_inodeAt hd] at hx
          exact hnc (Option.some.inj hx).symm
        · exact habs x (by rwa [hnum x hxd])
    exact h.mirrors.disk n hlive hold.1 hold.2
  · intro x X hX
    by_cases hxd : x = d
    · rw [hxd, hself] at hX
      cases hX
    · rw [hother x hxd] at hX
      exact h.inv.bounded x X hX
  · exact fun x y n hx hy => h.inv.one x y n (hsub x n hx).2 (hsub y n hy).2
  · intro x c hx
    have hxd := (hsub x _ (num_of_inodeAt hx)).1
    rw [hin x hxd] at hx
    exact h.attr x c hx
  · intro x X hX
    by_cases hxd : x = d
    · rw [hxd, hself] at hX
      cases hX
    · rw [hother x hxd] at hX
      exact h.fits x X hX
  · intro p P name e hP he hlive
    have hpd : p ≠ d := by
      rintro rfl
      rw [hself] at hP
      cases hP
    have hed : e ≠ d := by
      rintro rfl
      exact hlive hself
    rw [hother p hpd] at hP
    rw [hother e hed] at hlive
    rw [hnum p hpd, hnum e hed]
    exact h.named p P name e hP he hlive

/-- **An inode in limbo is written back**, and is its record on the volume from then on. -/
theorem Shows.dropInode (h : Shows live attrs (Function.update limbo c.ext4.inodeNum (some c.ext4))
      m w a) (hattr : c.attr = attrs c.ext4.inodeNum) (hnone : limbo c.ext4.inodeNum = none)
    (hflush : w.Flushable) (hd : m.dropInode c = some m') :
    ∃ w', Shows live attrs limbo m' w' a ∧ w'.Flushable ∧ w.Carries w' := by
  obtain ⟨fs', hdrop, rfl⟩ := Option.map_eq_some_iff.mp hd
  obtain ⟨hmem, habs⟩ := h.mirrors.leaving c.ext4.inodeNum c.ext4 (Function.update_self ..)
  obtain ⟨f, hf, -, hlinks⟩ := h.stores.file _ _ hmem
  have hlinked : c.ext4.inodeOnDisk.linksCount ≠ 0 := by
    rw [hlinks]
    exact h.linked _ f hf
  have hserve : w.serve (.drop c.ext4.inodeNum) = some (.done, w.put c.ext4.inodeNum
      (some (Ext4Inode.loadInode fs' c.ext4.inodeNum)) fs') := by
    simp only [World.serve, hmem]
    rw [h.mirrors.fs, hdrop, Option.map_some, if_neg hlinked]
  have hfaith : w.Faithful (.drop c.ext4.inodeNum) := fun ino hino _ => hflush _ ino hino
  obtain ⟨a', ha', hstores⟩ := World.serve_simulates w a _ _ _ h.stores hfaith hserve
  simp only [FileStore.serve, hf, Option.some.injEq, Prod.mk.injEq, true_and] at ha'
  rw [if_neg (h.linked _ f hf), FileStore.put_same hf] at ha'
  subst ha'
  refine ⟨_, ⟨⟨rfl, ?_, ?_, ?_, ?_, ?_⟩, ⟨h.inv.bounded, h.inv.one⟩, hstores, h.linked, ?_, h.attr,
    h.fits, h.named⟩,
    hflush.drop h.stores hserve,
    World.carries_of_step h.stores.consistent hmem fun R ho => ho.drop hlinked (by
      rw [h.mirrors.fs]
      exact hdrop)⟩
  · intro d c' hc'
    rw [World.files_put, if_neg]
    · exact h.mirrors.memory d c' hc'
    · intro hsame
      exact habs d (hsame ▸ num_of_inodeAt hc')
  · intro n ino hn
    have hnc : n ≠ c.ext4.inodeNum := by
      rintro rfl
      rw [hnone] at hn
      cases hn
    have hleave := h.mirrors.leaving n ino (by rwa [Function.update_of_ne hnc])
    rw [World.files_put, if_neg hnc]
    exact hleave
  · intro n hlive habs' hlimbo
    rw [World.files_put]
    by_cases hnc : n = c.ext4.inodeNum
    · rw [if_pos hnc, hnc]
      rfl
    · rw [if_neg hnc, h.mirrors.disk n hlive habs' (by rwa [Function.update_of_ne hnc])]
      show some (Ext4Inode.loadInode m.volume.fs n) = some (Ext4Inode.loadInode fs' n)
      rw [Ext4Inode.loadInode, Ext4Inode.loadInode, Ext4Inode.inodeTable_drop hlinked hdrop hnc]
  · intro n hn
    rw [World.files_put, if_neg, h.mirrors.dead n hn]
    rintro rfl
    have hdead := h.mirrors.dead _ hn
    rw [hmem] at hdead
    cases hdead
  · intro n ino hn
    rw [World.files_put] at hn
    split at hn
    · rename_i hnc
      cases hn
      exact hnc.symm
    · exact h.mirrors.number n ino hn
  · show Function.update m.attrs c.ext4.inodeNum c.attr = attrs
    rw [hattr, h.modes, Function.update_eq_self]

/-- **An `Arc` of an entry is dropped**, and with the last ones the entries and the inodes. -/
theorem Shows.releaseLoop {fuel : ℕ} (h : Shows live attrs limbo m w a) (hflush : w.Flushable)
    (hr : releaseLoop fuel m d = some m') :
    ∃ w', Shows live attrs limbo m' w' a ∧ w'.Flushable ∧ w.Carries w' := by
  induction fuel generalizing m m' w d limbo with
  | zero =>
    cases hr
    exact ⟨w, h, hflush, .refl w⟩
  | succ fuel ih =>
    unfold Mount.releaseLoop at hr
    split at hr
    · cases hr
      exact ⟨w, h, hflush, .refl w⟩
    rename_i D hD
    split at hr
    · cases hr
      exact ⟨w, h.modify (fun _ => ⟨rfl, rfl⟩) fun _ _ _ _ hc _ => Or.inl hc, hflush, .refl w⟩
    obtain ⟨m₂, hparent, hr⟩ := Option.bind_eq_some_iff.mp hr
    have hino : m.inodeAt d = D.inode := by rw [inodeAt, hD, Option.bind_some]
    have h₁ := h.remove d
    rw [hino] at h₁
    obtain ⟨w₂, h₂, hflush₂, hcarries⟩ : ∃ w₂, Shows live attrs (D.inode.elim limbo fun c =>
        Function.update limbo c.ext4.inodeNum (some c.ext4)) m₂ w₂ a ∧ w₂.Flushable ∧
          w.Carries w₂ := by
      cases hp : D.parent with
      | none =>
        rw [hp] at hparent
        cases hparent
        exact ⟨w, h₁, hflush, .refl w⟩
      | some p =>
        rw [hp] at hparent
        exact ih h₁ hflush hparent
    cases hc : D.inode with
    | none =>
      rw [hc] at hr h₂
      cases hr
      exact ⟨w₂, h₂, hflush₂, hcarries⟩
    | some c =>
      rw [hc] at hr h₂ hino
      obtain ⟨w₃, h₃, hflush₃, hcarries'⟩ :=
        h₂.dropInode (h.attr d c hino) (limbo_of_inodeAt h.mirrors hino) hflush₂ hr
      exact ⟨w₃, h₃, hflush₃, hcarries.trans hcarries'⟩

/-! ## Paths -/

theorem Shows.release (h : Shows live attrs limbo m w a) (hflush : w.Flushable)
    (hr : m.release d = some m') :
    ∃ w', Shows live attrs limbo m' w' a ∧ w'.Flushable ∧ w.Carries w' :=
  h.releaseLoop hflush hr

/-- A lookup in a directory reads all of its bytes. -/
theorem find_of_lookup {entry : Option Ext4DirEntry} {ino : Ext4Inode} {fs : Ext4FileSystem}
    {i : Ext4Inode} (h : i.lookup fs name = some (entry, ino)) :
    ∃ bs, i.read fs 0 i.getSize = some (bs, ino) ∧
      Ext4.DirContent.find (bs ++ List.replicate (i.getSize - bs.length) 0) name = some entry := by
  obtain ⟨⟨content, ino₁⟩, hinto, h⟩ := Option.bind_eq_some_iff.mp h
  obtain ⟨entry', hfind, h⟩ := Option.bind_eq_some_iff.mp h
  cases h
  unfold Ext4Inode.readInto at hinto
  obtain ⟨⟨bs, ino₂⟩, hread, heq⟩ := Option.map_eq_some_iff.mp hinto
  cases heq
  rw [List.length_replicate] at hread
  rw [List.drop_replicate] at hfind
  exact ⟨bs, hread, hfind⟩

/-- **A lookup in the inode of an entry** finds what its file has under the name. -/
theorem Shows.lookup (h : Shows live attrs limbo m w a) (hc : m.inodeAt d = some c)
    {entry : Option Ext4DirEntry} {ino : Ext4Inode}
    (hl : c.ext4.lookup m.volume.fs name = some (entry, ino)) :
    ∃ w', Shows live attrs limbo (m.setExt4 d ino) w' a ∧ (w.Flushable → w'.Flushable) ∧
      w.Carries w' ∧ child a c.ext4.inodeNum name = some (entry.map fun e => e.inodeNum.toNat) := by
  obtain ⟨bs, hread, hfind⟩ := find_of_lookup hl
  obtain ⟨w', f, hshows, hflush, hcarries, hf, rfl⟩ := h.read hc hread
  refine ⟨w', hshows, hflush, hcarries, ?_⟩
  obtain ⟨g, hg, hholds, -⟩ := h.stores.file _ _ (h.mirrors.memory d c hc)
  rw [hf] at hg
  cases hg
  have hall : Contents.read 0 c.ext4.getSize f.bytes = f.bytes := by
    rw [Contents.read, List.drop_zero, List.take_of_length_le hholds.length.le]
  rw [hall, hholds.length, Nat.sub_self, List.replicate_zero, List.append_nil] at hfind
  rw [child_of_file hf, Ext4.numberOf, hfind, Option.map_some]

/-- What a round of a walk loads is a file in use that is not in memory. -/
def Loads (live : Finset ℕ) (m : Mount) (current : ℕ) (name : Name) : Prop :=
  ∀ n, m.loads current name = some n → n ∈ live ∧ m.Absent n

/-- No inode is on its way out of memory. -/
def noLimbo : ℕ → Option Ext4Inode := fun _ => none

/-- **A new entry** for what a directory has under a name. -/
theorem Shows.newChild (h : Shows live attrs noLimbo m w a) {D : Dentry}
    (hcount : m.Counted refs) (hD : m.dentries d = some D) {entry : Option Ext4DirEntry}
    (hload : ∀ e, entry = some e → e.inodeNum.toNat ∈ live ∧ m.Absent e.inodeNum.toNat)
    (hnew : m.newChild d name entry = some (m', e)) :
    Shows live attrs noLimbo m' w a ∧ m'.num e = (entry.map fun e => e.inodeNum.toNat) ∧
      e = m.nextDentry ∧ ∀ x ≠ e, m'.num x = m.num x := by
  have hclone := h.clone d
  have hchildren : ∀ p P name e, (m.clone d).dentries p = some P → P.children name = some e →
      e < m.nextDentry := fun p P name e hP he => ((hcount.clone hD).children p P name e hP he).1
  have hnums : ∀ x, (m.clone d).num x = m.num x := fun x => by rw [num, num, inodeAt_clone]
  cases entry with
  | none =>
    cases hnew
    have hflags : DentryFlags.negative.contains .negative = true ∧
        DentryFlags.negative.contains .directory = false := by decide
    obtain ⟨hshows, hnum, hrest⟩ := @Shows.add live attrs noLimbo (m.clone d)
      (m.newDentry d name .negative none).1 w a hclone hchildren
      ⟨(m.dentries d).elim [] Dentry.absolutePath ++ '/' :: name, some d, fun _ => none,
        .negative, none, 1⟩ (fun _ => rfl) hflags (fun c hc => by cases hc) rfl rfl rfl rfl
    exact ⟨hshows, hnum, rfl, fun x hx => (hrest x hx).trans (hnums x)⟩
  | some ent =>
    obtain ⟨c, hc, hnew⟩ := Option.map_eq_some_iff.mp hnew
    obtain ⟨hlive, habs⟩ := hload ent rfl
    unfold Mount.loadInode at hc
    split at hc
    · cases hc
      cases hnew
      set c : CachedInode := ⟨Ext4Inode.loadInode m.volume.fs ent.inodeNum.toNat,
        m.attrs ent.inodeNum.toNat, none⟩ with hc
      set D₁ : Dentry := ⟨(m.dentries d).elim [] Dentry.absolutePath ++ '/' :: name, some d,
        fun _ => none, .ofMode c.attr.mode, some c, 1⟩ with hD₁
      have hfits : Dentry.Fits attrs D₁ := by
        refine ⟨ofMode_positive _, ?_⟩
        rw [← h.modes]
        rfl
      have hfresh : ∀ c', D₁.inode = some c' → (m.clone d).Fresh live attrs noLimbo c' := by
        rintro _ ⟨⟩
        refine ⟨rfl, by rw [← h.modes]; rfl, hlive, fun x hx => habs x ?_, rfl⟩
        rw [num, inodeAt_clone] at hx
        exact hx
      obtain ⟨hshows, hnum, hrest⟩ := @Shows.add live attrs noLimbo (m.clone d)
        (m.newDentry d name (.ofMode c.attr.mode) (some c)).1 w a hclone hchildren D₁
        (fun _ => rfl) hfits hfresh rfl rfl rfl rfl
      exact ⟨hshows, hnum, rfl, fun x hx => (hrest x hx).trans (hnums x)⟩
    · cases hc

/-- **One round of a walk** comes to what the file of the entry has under the name. -/
theorem Shows.walkStep (h : Shows live attrs noLimbo m w a) (hflush : w.Flushable)
    (hcount : m.Counted (d ::ₘ refs)) (hloads : m.Loads live d name) {r : Except Errno ℕ}
    (hs : m.walkStep d name = some (m', r)) :
    ∃ w', Shows live attrs noLimbo m' w' a ∧ w'.Flushable ∧ w.Carries w' ∧
      match r with
      | .ok next => (∃ n, m.num d = some n ∧ child a n name = some (m'.num next)) ∧
          ∀ x ≠ next, m'.num x = m.num x
      | .error e => e = .ENOENT ∧ m.num d = none := by
  obtain ⟨D, hD⟩ := hcount.live (Multiset.mem_cons_self d refs)
  unfold Mount.walkStep at hs
  split at hs
  · rename_i m₁ next hhit
    cases hs
    obtain ⟨h₁, hnamed⟩ := h.lookupChild hhit
    obtain ⟨n, hn, hchild⟩ := hnamed next rfl
    have hnums : ∀ x, m'.num x = m.num x := fun x => by rw [num, num, inodeAt_lookupChild hhit]
    refine ⟨w, h₁, hflush, .refl w, ⟨n, ?_, hchild⟩, fun x _ => hnums x⟩
    rw [← hn, hnums]
  rename_i m₁ hmiss
  obtain ⟨h₁, -⟩ := h.lookupChild hmiss
  obtain ⟨-, hcount₁, D₁, hD₁, -⟩ := lookupChild_none hcount hD hmiss
  have hin := inodeAt_lookupChild hmiss
  split at hs
  · rename_i hnone
    cases hs
    refine ⟨w, h₁, hflush, .refl w, rfl, ?_⟩
    rw [num, ← hin, hnone, Option.map_none]
  rename_i c hc
  obtain ⟨⟨m₂, next⟩, hlookup, heq⟩ := Option.map_eq_some_iff.mp hs
  cases heq
  unfold Mount.lookup at hlookup
  rw [lookupChild_miss hmiss] at hlookup
  obtain ⟨⟨entry, ino⟩, hfind, hlookup⟩ := Option.bind_eq_some_iff.mp hlookup
  obtain ⟨⟨m₃, e⟩, hnew, hlookup⟩ := Option.bind_eq_some_iff.mp hlookup
  cases hlookup
  obtain ⟨w₂, h₂, hflush₂, hcarries, hchild⟩ := h₁.lookup hc hfind
  have hkept := Ext4Inode.lookup_kept hfind
  have hnum₂ := num_setExt4 hc hkept.inodeNum
  have hD₂ := dentries_modify_self (f := fun D => { D with inode := D.inode.map fun c =>
    { c with ext4 := ino } }) hD₁
  -- what is loaded was not in memory when the round began
  have hload : ∀ ent, entry = some ent →
      ent.inodeNum.toNat ∈ live ∧ (m₁.setExt4 d ino).Absent ent.inodeNum.toNat := by
    rintro ent rfl
    have hl : m.loads d name = some ent.inodeNum.toNat := by
      unfold loads
      rw [hmiss]
      simp [hc, hfind]
    obtain ⟨hlive, habs⟩ := hloads _ hl
    refine ⟨hlive, fun x hx => habs x ?_⟩
    rw [hnum₂] at hx
    rw [← hx, num, num, hin]
  obtain ⟨h₃, hnum, hnext, hrest⟩ := h₂.newChild (hcount₁.setExt4 d ino) hD₂ hload hnew
  have hlt : d ≠ next := by
    rw [hnext]
    exact (hcount₁.bounded hD₁).ne
  have hnumd : m₃.num d = some c.ext4.inodeNum := by
    rw [hrest d hlt, hnum₂]
    exact num_of_inodeAt hc
  have hentered : m₃.num d = some c.ext4.inodeNum ∧
      child a c.ext4.inodeNum name = some (m₃.num next) := ⟨hnumd, by rw [hnum]; exact hchild⟩
  have hsame : ∀ (M : Mount) (x : ℕ), (M.insertChild d name next).num x = M.num x := fun M x => by
    rw [num, num]
    congr 1
    apply inodeAt_modify
    intro D
    rfl
  have hagain : (m₃.insertChild d name next).num d = some c.ext4.inodeNum ∧
      child a c.ext4.inodeNum name = some ((m₃.insertChild d name next).num next) := by
    rw [hsame, hsame]
    exact hentered
  refine ⟨w₂, (h₃.insertChild hentered).insertChild hagain, hflush₂ hflush, hcarries,
    ⟨c.ext4.inodeNum, ?_, ?_⟩, fun x hx => ?_⟩
  · rw [num, ← hin, hc, Option.map_some]
  · rw [hsame, hsame]
    exact hentered.2
  · rw [hsame, hsame, hrest x hx, hnum₂, num, num, hin]

/-- The entries that stay through a release have the inodes they had. -/
theorem num_of_release (hr : m.release d = some m') (he : m'.dentries e ≠ none) :
    m'.num e = m.num e := by
  obtain ⟨-, -, -, hshed⟩ := releaseLoop_spec hr
  obtain ⟨E', hE'⟩ := Option.ne_none_iff_exists'.mp he
  obtain ⟨E, hE, heq⟩ := hshed e E' hE'
  rw [num, num, inodeAt, inodeAt, hE', hE, Option.bind_some, Option.bind_some, heq]

/-- What each round of a walk loads is a file in use that is not in memory. -/
def WalkLoads (live : Finset ℕ) : List Name → Mount → ℕ → Prop
  | [], _, _ => True
  | name :: names, m, current => m.Loads live current name ∧
    ∀ m₁ next m₂, m.walkStep current name = some (m₁, .ok next) → m₁.release current = some m₂ →
      WalkLoads live names m₂ next

/-- **A walk** comes to what its names lead to, or fails where they do. -/
theorem Shows.walkLoop {names : List Name} {r : Except Errno (ℕ × ℕ)}
    (h : Shows live attrs noLimbo m w a) (hflush : w.Flushable) (hcount : m.Counted (d ::ₘ refs))
    (hloads : WalkLoads live names m d) (hw : walkLoop names m d = some (m', r)) :
    ∃ w', Shows live attrs noLimbo m' w' a ∧ w'.Flushable ∧ w.Carries w' ∧
      resolve a (m.num d) names = some (r.map fun p => m'.num p.1) := by
  induction names generalizing m w d with
  | nil =>
    cases hw
    refine ⟨w, h.clone d, hflush, .refl w, ?_⟩
    rw [resolve, Except.map, num, num, inodeAt_clone]
  | cons name names ih =>
    obtain ⟨hload, hrest⟩ := hloads
    obtain ⟨⟨m₁, r₁⟩, hstep, hw⟩ := Option.bind_eq_some_iff.mp hw
    obtain ⟨w₁, h₁, hflush₁, hcarries₁, hfound⟩ := h.walkStep hflush hcount hload hstep
    obtain ⟨-, hcount₁⟩ := walkStep_spec hcount hstep
    cases r₁ with
    | error e =>
      obtain ⟨m₂, hrelease, hw⟩ := Option.bind_eq_some_iff.mp hw
      cases hw
      obtain ⟨w₂, h₂, hflush₂, hcarries₂⟩ := h₁.release hflush₁ hrelease
      obtain ⟨rfl, hnone⟩ := hfound
      exact ⟨w₂, h₂, hflush₂, hcarries₁.trans hcarries₂, by rw [hnone]; rfl⟩
    | ok next =>
      dsimp only at hw hfound hcount₁
      obtain ⟨⟨n, hn, hchild⟩, -⟩ := hfound
      have hresolve : resolve a (m.num d) (name :: names) = resolve a (m₁.num next) names := by
        rw [hn, resolve, hchild, Option.bind_some]
      rw [hresolve]
      split at hw
      · rename_i hlast
        cases hw
        subst hlast
        exact ⟨w₁, h₁, hflush₁, hcarries₁, rfl⟩
      · obtain ⟨m₂, hrelease, hw⟩ := Option.bind_eq_some_iff.mp hw
        obtain ⟨w₂, h₂, hflush₂, hcarries₂⟩ := h₁.release hflush₁ hrelease
        have hcount₂ := hcount₁.counted
        rw [Multiset.cons_swap] at hcount₂
        have hcount₂ := hcount₂.release hrelease
        obtain ⟨N, hN⟩ := hcount₂.live (Multiset.mem_cons_self _ _)
        have hsame := num_of_release hrelease (by rw [hN]; exact Option.some_ne_none N)
        rw [← hsame]
        obtain ⟨w₃, h₃, hflush₃, hcarries₃, hresolve⟩ :=
          ih h₂ hflush₂ hcount₂ (hrest m₁ next m₂ hstep hrelease) hw
        exact ⟨w₃, h₃, hflush₃, (hcarries₁.trans hcarries₂).trans hcarries₃, hresolve⟩

/-- An entry in memory is negative just when it has no inode. -/
theorem Shows.isNegative_iff (h : Shows live attrs limbo m w a) (hd : m.dentries d ≠ none) :
    m.isNegative d = true ↔ m.num d = none := by
  obtain ⟨D, hD⟩ := Option.ne_none_iff_exists'.mp hd
  have hfits := h.fits d D hD
  unfold Dentry.Fits at hfits
  rw [isNegative, num, inodeAt, hD, Option.any_some, Option.bind_some]
  cases hc : D.inode with
  | none =>
    rw [hc] at hfits
    simp [hfits.1]
  | some c =>
    rw [hc] at hfits
    simp [hfits.1]

/-- **An opened path** is what it leads to. -/
theorem Shows.openPath {path : Name} {flags : UInt8} {r : Except Errno ℕ}
    (h : Shows live attrs noLimbo m w a) (hflush : w.Flushable) (hcount : m.Counted refs)
    (hroot : m.root ∈ refs) (hloads : WalkLoads live (components path) (m.clone m.root) m.root)
    (ho : m.openPath path flags = some (m', r)) :
    ∃ w' r₀, Shows live attrs noLimbo m' w' a ∧ w'.Flushable ∧
      resolve a (m.num m.root) (components path) = some r₀ ∧
      (r.map fun e => m'.num e) = r₀.bind fun node =>
        if node = none ∧ flags &&& oCreat ≠ oCreat then .error .ENOENT else .ok node := by
  obtain ⟨D, hD⟩ := hcount.live hroot
  have hnum : (m.clone m.root).num m.root = m.num m.root := by rw [num, num, inodeAt_clone]
  obtain ⟨⟨m₁, r₁⟩, hwalk, ho⟩ := Option.bind_eq_some_iff.mp ho
  obtain ⟨w₁, h₁, hflush₁, -, hresolve⟩ :=
    (h.clone m.root).walkLoop hflush (hcount.clone hD) hloads hwalk
  obtain ⟨-, hcount₁⟩ := walkLoop_spec (hcount.clone hD) hwalk
  rw [hnum] at hresolve
  cases r₁ with
  | error e =>
    cases ho
    exact ⟨w₁, _, h₁, hflush₁, hresolve, rfl⟩
  | ok p =>
    obtain ⟨e, parent⟩ := p
    obtain ⟨hcount₁, -, -⟩ := hcount₁
    obtain ⟨m₂, hrelease, ho⟩ := Option.bind_eq_some_iff.mp ho
    obtain ⟨w₂, h₂, hflush₂, -⟩ := h₁.release hflush₁ hrelease
    rw [Multiset.cons_swap] at hcount₁
    have hcount₂ := hcount₁.release hrelease
    obtain ⟨E, hE⟩ := hcount₂.live (Multiset.mem_cons_self _ _)
    have hlive : m₂.dentries e ≠ none := by
      rw [hE]
      exact Option.some_ne_none E
    have hsame := num_of_release hrelease hlive
    have hneg := h₂.isNegative_iff hlive
    rw [Except.map, ← hsame] at hresolve
    split at ho
    · rename_i hmissing
      obtain ⟨m₃, hrelease', ho⟩ := Option.bind_eq_some_iff.mp ho
      cases ho
      obtain ⟨w₃, h₃, hflush₃, -⟩ := h₂.release hflush₂ hrelease'
      refine ⟨w₃, _, h₃, hflush₃, hresolve, ?_⟩
      simp only [Except.bind, Except.map]
      rw [if_pos ⟨hneg.mp hmissing.1, hmissing.2⟩]
    · rename_i hthere
      cases ho
      refine ⟨w₂, _, h₂, hflush₂, hresolve, ?_⟩
      simp only [Except.bind, Except.map]
      rw [if_neg fun hm => hthere ⟨hneg.mpr hm.1, hm.2⟩]

end Mount

end QuackOS.Fs
