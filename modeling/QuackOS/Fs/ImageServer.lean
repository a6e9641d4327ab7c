import QuackOS.Fs.Coherence
import QuackOS.Fs.Mirror
import QuackOS.Lib.Simulation

/-!
# The server answers as the ideal one

The file-system server over its mount, against the ideal server: the same responses, byte for
byte, to every run of opens, reads, writes, seeks, stats, listings and closes.

* `Request.Faithful` — the requests that keep to the contents;
* `FsServer.Presents` — the open files and the mount are those of an image;
* `respond_simulates` — one request;
* `server_refines` — a server that starts on a volume answers every run as the ideal server does.
-/

namespace QuackOS.Fs

open Slice
open Ext4 (Name Ext4Inode Ext4FileSystem InodeAttr World FileStore Volume)

namespace Mount

/-- Every inode in memory can be written back: its dirty pages have blocks. -/
def CanFlush (m : Mount) : Prop :=
  ∀ d c, m.inodeAt d = some c → Ext4Inode.Flushable m.volume.fs c.ext4

variable {live : Finset ℕ} {attrs : ℕ → InodeAttr} {m m' : Mount} {w : World} {a : FileStore}
  {d : ℕ} {refs : Multiset ℕ}

theorem Shows.flushable (h : Shows live attrs noLimbo m w a) (hflush : m.CanFlush) :
    w.Flushable := by
  intro n ino hn
  rw [h.mirrors.fs]
  by_cases hmem : m.Absent n
  · have hlive : n ∈ live := by
      by_contra hdead
      rw [h.mirrors.dead n hdead] at hn
      cases hn
    rw [h.mirrors.disk n hlive hmem rfl] at hn
    cases hn
    exact Ext4Inode.flushable_loadInode n
  · unfold Absent at hmem
    push Not at hmem
    obtain ⟨d, hd⟩ := hmem
    obtain ⟨c, hc, rfl⟩ := Option.map_eq_some_iff.mp hd
    rw [h.mirrors.memory d c hc] at hn
    cases hn
    exact hflush d c hc

theorem walkFresh_of_loads {names : List Name} (h : WalkLoads live names m d) :
    WalkFresh names m d := by
  induction names generalizing m d with
  | nil => trivial
  | cons name names ih =>
    exact ⟨fun n hn => (h.1 n hn).2, fun m₁ next m₂ hs hr => ih (h.2 m₁ next m₂ hs hr)⟩

/-- **The entries that stay have the inodes they had**, and those without one stay without. -/
theorem num_of_steps (h : Shows live attrs noLimbo m w a) {w' : World}
    (h' : Shows live attrs noLimbo m' w' a) (hsteps : Steps ∅ m m') (hwalked : Walked m m')
    (hlt : d < m.nextDentry) (hd : m'.dentries d ≠ none) : m'.num d = m.num d := by
  obtain ⟨D', hD'⟩ := Option.ne_none_iff_exists'.mp hd
  obtain ⟨D, hD, hkept⟩ := hsteps.old d hlt D' hD'
  obtain ⟨D₀, hD₀, -, -, hflags⟩ := hwalked.old d hlt D' hD'
  rw [hD] at hD₀
  cases hD₀
  rw [num, num, inodeAt, inodeAt, hD', hD, Option.bind_some, Option.bind_some]
  cases hc : D.inode with
  | some c =>
    obtain ⟨c', hc', hk⟩ := hkept (Set.notMem_empty d) c hc
    rw [hc', Option.map_some, Option.map_some, hk.inodeNum]
  | none =>
    have hfits := h.fits d D hD
    have hfits' := h'.fits d D' hD'
    unfold Dentry.Fits at hfits hfits'
    rw [hc] at hfits
    cases hc' : D'.inode with
    | none => rfl
    | some c' =>
      rw [hc', hflags] at hfits'
      rw [hfits.1] at hfits'
      cases hfits'.1

theorem openPath_walked {path : Name} {flags : UInt8} {r : Except Errno ℕ}
    (hcount : m.Counted refs) (hroot : m.root ∈ refs) (h : m.openPath path flags = some (m', r)) :
    Walked m m' := by
  cases openPath_goes h with
  | noWalk walk => exact pathWalk_walked hcount hroot walk
  | negative walk rel rel' =>
    exact ((pathWalk_walked hcount hroot walk).trans (walked_release rel)).trans
      (walked_release rel')
  | opened walk rel _ => exact (pathWalk_walked hcount hroot walk).trans (walked_release rel)

end Mount

/-- **The requests that keep to the contents.**  Reads, seeks, stats and listings do.  A write ends
below `2 ^ 32` and is not to a file that a name in memory comes from; an open loads files that are
in use and not in memory; and when an inode may leave memory, its dirty pages have blocks.
Requests that change names are left out. -/
def Request.Faithful (live : Finset ℕ) (s : FsServer Mount ℕ) : Request → Prop
  | .openFile _ path => s.vfs.CanFlush ∧
      Mount.WalkLoads live (components path.toList) (s.vfs.clone s.vfs.root) s.vfs.root
  | .close _ => s.vfs.CanFlush
  | .write fd data => ∀ f, s.file 0 fd.toNat = some f → f.pos + data.length < 2 ^ 32 ∧
      ∀ D name e, s.vfs.dentries f.dentry = some D → D.children name = some e →
        s.vfs.dentries e = none
  | .readlink _ | .create .. | .unlink _ | .rename .. => False
  | _ => True

namespace FsServer

variable {live : Finset ℕ} {attrs : ℕ → InodeAttr} {s s' : FsServer Mount ℕ} {i : Image}
  {fd : ℕ} {f : File ℕ}

/-- What an open file is to the ideal server. -/
def seen (m : Mount) (f : File ℕ) : OpenFile := ⟨m.num f.dentry, f.pos⟩

/-- **The server presents an image.** -/
structure Presents (live : Finset ℕ) (attrs : ℕ → InodeAttr) (s : FsServer Mount ℕ) (i : Image) :
    Prop where
  order : InOrder s
  shows : ∃ w, Mount.Shows live attrs Mount.noLimbo s.vfs w i.files
  root : s.vfs.num s.vfs.root = some 2
  table : ∀ fd, i.table fd = (s.file 0 fd).map (seen s.vfs)

/-- An open file is in memory. -/
theorem Presents.held (h : Presents live attrs s i) (hf : s.file 0 fd = some f) :
    ∃ D, s.vfs.dentries f.dentry = some D :=
  Mount.Counted.live h.order (Multiset.mem_cons_of_mem (mem_openDentries hf))

/-- The mount has changed, and the open files have not. -/
theorem Presents.vfs (h : Presents live attrs s i) {m : Mount} {a : FileStore}
    (horder : InOrder { s with vfs := m })
    (hshows : ∃ w, Mount.Shows live attrs Mount.noLimbo m w a) (hroot : m.num m.root = some 2)
    (hnum : ∀ fd f, s.file 0 fd = some f → m.num f.dentry = s.vfs.num f.dentry) :
    Presents live attrs { s with vfs := m } ⟨a, i.table⟩ := by
  refine ⟨horder, hshows, hroot, fun fd => ?_⟩
  rw [h.table fd]
  show (s.file 0 fd).map (seen s.vfs) = (s.file 0 fd).map (seen m)
  cases hf : s.file 0 fd with
  | none => rfl
  | some f => simp only [Option.map_some, seen, hnum fd f hf]

/-- A cursor has moved. -/
theorem Presents.setPos (h : Presents live attrs s i) (hf : s.file 0 fd = some f) (pos : ℕ) :
    Presents live attrs (s.setFile 0 fd (some { f with pos }))
      (i.setSlot fd (some { seen s.vfs f with pos })) := by
  refine ⟨h.order.setPos hf pos, h.shows, h.root, fun gd => ?_⟩
  rw [file_setFile_eq hf]
  by_cases hgd : gd = fd
  · subst hgd
    simp only [Image.setSlot, Function.update_self, Option.map_some]
    rfl
  · simp only [Image.setSlot, Function.update_of_ne hgd]
    exact h.table gd

/-- The file behind a descriptor. -/
theorem Presents.slot (h : Presents live attrs s i) (hf : s.file 0 fd = some f) :
    i.table fd = some (seen s.vfs f) := by
  rw [h.table fd, hf, Option.map_some]

theorem Presents.noSlot (h : Presents live attrs s i) (hf : s.file 0 fd = none) :
    i.table fd = none := by
  rw [h.table fd, hf, Option.map_none]

/-! ## One request -/

/-- The bytes an outcome is turned into. -/
def outcome {α : Type} (o : Except Errno α) (ok : α → Option (List UInt8)) :
    Option (List UInt8) :=
  match o with
  | .ok x => ok x
  | .error e => errResponse e

theorem respond_eq {σ δ α : Type} (p : FsServer σ δ × Except Errno α)
    (ok : α → Option (List UInt8)) :
    respond p ok = (outcome p.2 ok).map fun resp => (p.1, resp) := by
  obtain ⟨s, o⟩ := p
  cases o <;> rfl

/-- The response with some bytes. -/
def dataResponse (data : List UInt8) : Option (List UInt8) :=
  okResponse (BitVec.ofNat 64 data.length) (data.take 240)

theorem wire_data (bs : List (BitVec 8)) :
    (Answer.data bs).wire = dataResponse (bs.map UInt8.ofBitVec) := by
  rw [Answer.wire, dataResponse, List.length_map]

/-- The inode of an entry has changed, and its number has not. -/
theorem Presents.setExt4 (h : Presents live attrs s i) {d : ℕ} {c : CachedInode}
    (hc : s.vfs.inodeAt d = some c) {ino : Ext4Inode} (hnum : ino.inodeNum = c.ext4.inodeNum)
    {fs' : Ext4FileSystem} {a : FileStore}
    (hshows : ∃ w, Mount.Shows live attrs Mount.noLimbo ((s.vfs.setFs fs').setExt4 d ino) w a) :
    Presents live attrs { s with vfs := (s.vfs.setFs fs').setExt4 d ino } ⟨a, i.table⟩ := by
  have hc' : (s.vfs.setFs fs').inodeAt d = some c := hc
  have hnums : ((s.vfs.setFs fs').setExt4 d ino).num = s.vfs.num := Mount.num_setExt4 hc' hnum
  have hcount : (s.vfs.setFs fs').Counted (s.vfs.root ::ₘ s.openDentries) :=
    ⟨h.order.heap, h.order.children⟩
  refine h.vfs (inOrder_of_vfs ⟨rfl, hcount.setExt4 d ino⟩) hshows ?_ fun _ f _ => by rw [hnums]
  rw [hnums]
  exact h.root

/-- The inode of an open file was read, and the cursor moved. -/
theorem Presents.moved (h : Presents live attrs s i) (hf : s.file 0 fd = some f) {c : CachedInode}
    (hc : s.vfs.inodeAt f.dentry = some c) {off k : ℕ} {bs : List (BitVec 8)} {ino : Ext4Inode}
    (hread : c.ext4.read s.vfs.volume.fs off k = some (bs, ino)) (pos : ℕ) :
    ∃ g, i.file (seen s.vfs f) = some g ∧ bs = Contents.read off k g.bytes ∧
      g.bytes.length = c.ext4.getSize ∧
      Presents live attrs (({ s with vfs := s.vfs.setExt4 f.dentry ino } : FsServer Mount ℕ).setFile
          0 fd (some { f with pos })) (i.setSlot fd (some { seen s.vfs f with pos })) := by
  obtain ⟨w, hshows⟩ := h.shows
  obtain ⟨w', g, hshows', -, -, hg, hbs⟩ := hshows.read hc hread
  obtain ⟨g', hg', hholds, -⟩ := hshows.stores.file _ _ (hshows.mirrors.memory _ c hc)
  rw [hg] at hg'
  cases hg'
  have hnum := (Ext4Inode.read_kept hread).inodeNum
  have hfile : i.file (seen s.vfs f) = some g := by
    rw [seen, Mount.num_of_inodeAt hc, Image.file, Option.bind_some, hg]
  have hset : Presents live attrs
      ({ s with vfs := s.vfs.setExt4 f.dentry ino } : FsServer Mount ℕ) i :=
    @setExt4 live attrs s i h f.dentry c hc ino hnum s.vfs.volume.fs i.files ⟨w', hshows'⟩
  have hseen : seen (s.vfs.setExt4 f.dentry ino) f = seen s.vfs f := by
    rw [seen, seen, Mount.num_setExt4 hc hnum]
  have hmoved := hset.setPos hf pos
  rw [show seen (({ s with vfs := s.vfs.setExt4 f.dentry ino } : FsServer Mount ℕ)).vfs f =
    seen s.vfs f from hseen] at hmoved
  exact ⟨g, hfile, hbs, hholds.length, hmoved⟩

/-- An open file without an inode has no file. -/
theorem file_seen_none (hc : s.vfs.inodeAt f.dentry = none) : i.file (seen s.vfs f) = none := by
  rw [Image.file, seen, Mount.num, hc, Option.map_none, Option.bind_none]

theorem Presents.read (h : Presents live attrs s i) {count : ℕ} {o : Except Errno (List UInt8)}
    (hr : s.read Mount.vfs 0 fd count = some (s', o)) :
    Presents live attrs s' (i.read fd count).2 ∧
      (i.read fd count).1.wire = outcome o dataResponse := by
  unfold FsServer.read at hr
  cases hf : s.file 0 fd with
  | none =>
    rw [hf] at hr
    cases hr
    rw [Image.read, h.noSlot hf]
    exact ⟨h, rfl⟩
  | some f =>
    rw [hf] at hr
    obtain ⟨⟨m, r⟩, hread, hr⟩ := Option.bind_eq_some_iff.mp hr
    change s.vfs.read f.dentry f.pos count = _ at hread
    unfold Mount.read at hread
    cases hc : s.vfs.inodeAt f.dentry with
    | none =>
      rw [hc] at hread
      cases hread
      cases hr
      rw [Image.read, h.slot hf]
      simp only [file_seen_none hc]
      exact ⟨h, rfl⟩
    | some c =>
      rw [hc] at hread
      obtain ⟨⟨bs, ino⟩, hbytes, heq⟩ := Option.map_eq_some_iff.mp hread
      cases heq
      cases hr
      obtain ⟨g, hfile, hbs, -, hmoved⟩ := h.moved hf hc hbytes (f.pos + bs.length)
      rw [Image.read, h.slot hf]
      simp only [hfile]
      rw [List.length_map, show (seen s.vfs f).pos = f.pos from rfl, ← hbs]
      exact ⟨hmoved, wire_data bs⟩

theorem Presents.isDir (h : Presents live attrs s i) (hf : s.file 0 fd = some f) :
    s.vfs.isDir f.dentry = (seen s.vfs f).node.any (Mount.isDirNum attrs) := by
  obtain ⟨w, hshows⟩ := h.shows
  obtain ⟨D, hD⟩ := h.held hf
  have hfits := hshows.fits _ D hD
  unfold Mount.Dentry.Fits at hfits
  rw [Mount.isDir, seen, Mount.num, Mount.inodeAt, hD, Option.any_some, Option.bind_some]
  cases hc : D.inode with
  | none =>
    rw [hc] at hfits
    exact hfits.2
  | some c =>
    rw [hc] at hfits
    exact hfits.2

/-- A listing reads the rest of the directory, and takes records from it. -/
theorem records_of_getdents {j ino : Ext4Inode} {fs : Ext4FileSystem} {off n : ℕ}
    {r : Option (ℕ × List (BitVec 8))} (hlinks : j.inodeOnDisk.linksCount ≠ 0)
    (h : j.getdents fs off n = some (r, ino)) : off ≤ j.getSize ∧ ∃ bs p,
      j.read fs off (j.getSize - off) = some (bs, ino) ∧ r = some p ∧
      Ext4.DirContent.getdents (bs ++ List.replicate (j.getSize - off - bs.length) 0) n =
        some p := by
  unfold Ext4Inode.getdents at h
  rw [if_neg hlinks] at h
  split at h
  · cases h
  rename_i hle
  obtain ⟨⟨content, ino₁⟩, hinto, h⟩ := Option.bind_eq_some_iff.mp h
  obtain ⟨p, hrecords, h⟩ := Option.bind_eq_some_iff.mp h
  cases h
  unfold Ext4Inode.readInto at hinto
  obtain ⟨⟨bs, ino₂⟩, hread, heq⟩ := Option.map_eq_some_iff.mp hinto
  cases heq
  rw [List.length_replicate] at hread
  rw [List.drop_replicate] at hrecords
  exact ⟨Nat.le_of_not_lt hle, bs, p, hread, rfl, hrecords⟩

theorem Presents.getdents (h : Presents live attrs s i) {count : ℕ}
    {o : Except Errno (List UInt8)} (hr : s.getdents Mount.vfs 0 fd count = some (s', o)) :
    ∃ answer i', i.getdents (Mount.isDirNum attrs) fd count = some (answer, i') ∧
      Presents live attrs s' i' ∧ answer.wire = outcome o dataResponse := by
  unfold FsServer.getdents at hr
  cases hf : s.file 0 fd with
  | none =>
    rw [hf] at hr
    cases hr
    rw [Image.getdents, h.noSlot hf]
    exact ⟨_, _, rfl, h, rfl⟩
  | some f =>
    rw [hf] at hr
    dsimp only at hr
    rw [show Mount.vfs.isDir s.vfs f.dentry = s.vfs.isDir f.dentry from rfl, h.isDir hf] at hr
    rw [Image.getdents, h.slot hf]
    dsimp only
    split at hr
    · rename_i hdir
      rw [if_pos hdir]
      obtain ⟨⟨m, r⟩, hdents, hr⟩ := Option.bind_eq_some_iff.mp hr
      change s.vfs.getdents f.dentry f.pos count = _ at hdents
      unfold Mount.getdents at hdents
      cases hc : s.vfs.inodeAt f.dentry with
      | none =>
        rw [hc] at hdents
        cases hdents
        cases hr
        rw [file_seen_none hc]
        exact ⟨_, _, rfl, h, rfl⟩
      | some c =>
        rw [hc] at hdents
        obtain ⟨⟨r₁, ino⟩, hrecords, heq⟩ := Option.map_eq_some_iff.mp hdents
        cases heq
        obtain ⟨w, hshows⟩ := h.shows
        obtain ⟨g₀, hg₀, -, hlinks⟩ := hshows.stores.file _ _ (hshows.mirrors.memory _ c hc)
        have hlinked : c.ext4.inodeOnDisk.linksCount ≠ 0 := by
          rw [hlinks]
          exact hshows.linked _ g₀ hg₀
        obtain ⟨hle, bs, p, hread, rfl, htaken⟩ := records_of_getdents hlinked hrecords
        obtain ⟨n, records⟩ := p
        cases hr
        obtain ⟨g, hfile, hbs, hlen, hmoved⟩ := h.moved hf hc hread (f.pos + n)
        have hall : bs = g.bytes.drop f.pos := by
          rw [hbs, Contents.read, List.take_of_length_le (by rw [List.length_drop, hlen])]
        rw [hall, List.length_drop, hlen, Nat.sub_self, List.replicate_zero,
          List.append_nil] at htaken
        have hpos : ¬ g.bytes.length < (seen s.vfs f).pos := by
          rw [hlen]
          exact Nat.not_lt.mpr hle
        rw [hfile]
        dsimp only
        rw [if_neg hpos, show (seen s.vfs f).pos = f.pos from rfl, htaken, Option.map_some]
        exact ⟨_, _, rfl, hmoved, wire_data records⟩
    · rename_i hdir
      cases hr
      rw [if_neg hdir]
      exact ⟨_, _, rfl, h, rfl⟩

theorem Presents.write (h : Presents live attrs s i) {data : List UInt8} {o : Except Errno ℕ}
    (hfaith : ∀ f, s.file 0 fd = some f → f.pos + data.length < 2 ^ 32 ∧
      ∀ D name e, s.vfs.dentries f.dentry = some D → D.children name = some e →
        s.vfs.dentries e = none)
    (hr : s.write Mount.vfs 0 fd data = some (s', o)) :
    Presents live attrs s' (i.write fd (data.map UInt8.toBitVec)).2 ∧
      (i.write fd (data.map UInt8.toBitVec)).1.wire =
        outcome o fun n => okResponse (BitVec.ofNat 64 n) [] := by
  unfold FsServer.write at hr
  cases hf : s.file 0 fd with
  | none =>
    rw [hf] at hr
    cases hr
    rw [Image.write, h.noSlot hf]
    exact ⟨h, rfl⟩
  | some f =>
    obtain ⟨hend, hleaf⟩ := hfaith f hf
    rw [hf] at hr
    obtain ⟨⟨m, r⟩, hwrite, hr⟩ := Option.bind_eq_some_iff.mp hr
    change s.vfs.write f.dentry f.pos data = _ at hwrite
    unfold Mount.write at hwrite
    rw [Image.write, h.slot hf]
    dsimp only
    cases hc : s.vfs.inodeAt f.dentry with
    | none =>
      rw [hc] at hwrite
      cases hwrite
      cases hr
      rw [show (seen s.vfs f).node = none by rw [seen, Mount.num, hc, Option.map_none]]
      exact ⟨h, rfl⟩
    | some c =>
      rw [hc] at hwrite
      obtain ⟨⟨n, ino, fs'⟩, hbytes, heq⟩ := Option.map_eq_some_iff.mp hwrite
      cases heq
      cases hr
      obtain ⟨w, hshows⟩ := h.shows
      obtain ⟨w', g, hshows', hg, rfl⟩ :=
        hshows.write hc hbytes (by rw [List.length_map]; exact hend) hleaf
      have hnum : ino.inodeNum = c.ext4.inodeNum := (Ext4Inode.write_spec hbytes).2.inodeNum
      have hc' : (s.vfs.setFs fs').inodeAt f.dentry = some c := hc
      have hset := h.setExt4 hc hnum ⟨w', hshows'⟩
      have hmoved := hset.setPos hf (f.pos + (data.map UInt8.toBitVec).length)
      have hseen : seen ((s.vfs.setFs fs').setExt4 f.dentry ino) f = seen s.vfs f := by
        rw [seen, seen, Mount.num_setExt4 hc' hnum]
        rfl
      rw [show seen (({ s with vfs := (s.vfs.setFs fs').setExt4 f.dentry ino } :
        FsServer Mount ℕ)).vfs f = seen s.vfs f from hseen] at hmoved
      have hnode : (seen s.vfs f).node = some c.ext4.inodeNum := Mount.num_of_inodeAt hc
      have hslot : ({ seen s.vfs f with pos := f.pos + (data.map UInt8.toBitVec).length } :
          OpenFile) = ⟨some c.ext4.inodeNum, f.pos + (data.map UInt8.toBitVec).length⟩ := by
        rw [← hnode]
      rw [hslot] at hmoved
      rw [hnode]
      dsimp only
      rw [hg]
      exact ⟨hmoved, rfl⟩

theorem seek_eq (size : ℕ) (f : File ℕ) (offset : BitVec 64) (whence : SeekWhence) :
    seek size f offset whence =
      if 2 ^ 63 ≤ Image.seekBase whence f.pos size ∨
          Image.seekBase whence f.pos size + offset.toInt < 0 ∨
          2 ^ 63 ≤ Image.seekBase whence f.pos size + offset.toInt then .error .EINVAL
      else .ok (Image.seekBase whence f.pos size + offset.toInt).toNat := by
  have hseek (base : ℤ) : (if 2 ^ 63 ≤ base then .error .EINVAL
      else if base + offset.toInt < 0 ∨ 2 ^ 63 ≤ base + offset.toInt then .error .EINVAL
      else .ok (base + offset.toInt).toNat : Except Errno ℕ) =
      if 2 ^ 63 ≤ base ∨ base + offset.toInt < 0 ∨ 2 ^ 63 ≤ base + offset.toInt then .error .EINVAL
      else .ok (base + offset.toInt).toNat := by
    by_cases hbase : 2 ^ 63 ≤ base
    · rw [if_pos hbase, if_pos (Or.inl hbase)]
    rw [if_neg hbase]
    by_cases htarget : base + offset.toInt < 0 ∨ 2 ^ 63 ≤ base + offset.toInt
    · rw [if_pos htarget, if_pos (Or.inr htarget)]
    · rw [if_neg htarget, if_neg (not_or.mpr ⟨hbase, htarget⟩)]
  cases whence with
  | set => exact hseek 0
  | cur => exact hseek f.pos
  | fromEnd => exact hseek size

theorem Presents.lseek (h : Presents live attrs s i) (offset : BitVec 64) (whence : SeekWhence) :
    Presents live attrs (s.lseek Mount.vfs 0 fd offset whence).1 (i.lseek fd offset whence).2 ∧
      (i.lseek fd offset whence).1.wire = outcome (s.lseek Mount.vfs 0 fd offset whence).2
        fun pos => okResponse (BitVec.ofNat 64 pos) [] := by
  unfold FsServer.lseek
  cases hf : s.file 0 fd with
  | none =>
    rw [Image.lseek, h.noSlot hf]
    exact ⟨h, rfl⟩
  | some f =>
    have hsize : ((i.file (seen s.vfs f)).elim 0 fun d => d.bytes.length) =
        Mount.vfs.size s.vfs f.dentry := by
      show _ = (s.vfs.inodeAt f.dentry).elim 0 fun c => c.ext4.getSize
      obtain ⟨w, hshows⟩ := h.shows
      cases hc : s.vfs.inodeAt f.dentry with
      | none => rw [file_seen_none hc]; rfl
      | some c =>
        obtain ⟨g, hg, hholds, -⟩ := hshows.stores.file _ _ (hshows.mirrors.memory _ c hc)
        rw [seen, Mount.num_of_inodeAt hc, Image.file, Option.bind_some, hg]
        exact hholds.length
    rw [Image.lseek, h.slot hf]
    dsimp only
    rw [seek_eq, hsize, show (seen s.vfs f).pos = f.pos from rfl]
    by_cases hbad : 2 ^ 63 ≤ Image.seekBase whence f.pos (Mount.vfs.size s.vfs f.dentry) ∨
        Image.seekBase whence f.pos (Mount.vfs.size s.vfs f.dentry) + offset.toInt < 0 ∨
        2 ^ 63 ≤ Image.seekBase whence f.pos (Mount.vfs.size s.vfs f.dentry) + offset.toInt
    · simp only [if_pos hbad]
      exact ⟨h, rfl⟩
    · simp only [if_neg hbad]
      exact ⟨h.setPos hf _, rfl⟩

theorem Presents.fstat (h : Presents live attrs s i) :
    (i.fstat fd).wire = outcome (s.fstat Mount.vfs 0 fd) fun size => okResponse size [] := by
  unfold FsServer.fstat
  rw [Image.fstat]
  cases hf : s.file 0 fd with
  | none =>
    rw [h.noSlot hf]
    rfl
  | some f =>
    have hstat : Mount.vfs.stat s.vfs f.dentry =
        (s.vfs.inodeAt f.dentry).map fun c => BitVec.ofNat 64 c.ext4.getSize := rfl
    rw [h.slot hf, Option.bind_some, Option.bind_some, hstat]
    cases hc : s.vfs.inodeAt f.dentry with
    | none =>
      rw [file_seen_none hc]
      rfl
    | some c =>
      obtain ⟨w, hshows⟩ := h.shows
      obtain ⟨g, hg, hholds, -⟩ := hshows.stores.file _ _ (hshows.mirrors.memory _ c hc)
      rw [show i.file (seen s.vfs f) = some g by
        rw [seen, Mount.num_of_inodeAt hc, Image.file, Option.bind_some, hg]]
      dsimp only [Option.map_some]
      rw [hholds.length]
      rfl

theorem Presents.close (h : Presents live attrs s i) (hflush : s.vfs.CanFlush)
    {o : Except Errno Unit} (hr : s.close Mount.vfs 0 fd = some (s', o)) :
    Presents live attrs s' (i.close fd).2 ∧
      (i.close fd).1.wire = outcome o fun _ => response [(0, leBytes 8 0)] := by
  unfold FsServer.close at hr
  cases hf : s.file 0 fd with
  | none =>
    rw [hf] at hr
    cases hr
    rw [Image.close, h.noSlot hf]
    exact ⟨h, rfl⟩
  | some f =>
    rw [hf] at hr
    obtain ⟨m, hrelease, hr⟩ := Option.bind_eq_some_iff.mp hr
    cases hr
    change s.vfs.release f.dentry = some m at hrelease
    have horder := h.order.closed hf hrelease
    rw [Image.close, h.slot hf]
    obtain ⟨w, hshows⟩ := h.shows
    obtain ⟨w', hshows', -⟩ := hshows.release (hshows.flushable hflush) hrelease
    have hnum : ∀ d, m.dentries d ≠ none → m.num d = s.vfs.num d := fun d hd =>
      Mount.num_of_release hrelease hd
    have hlive : ∀ d, d ∈ m.root ::ₘ (({ s with vfs := m } : FsServer Mount ℕ).setFile 0 fd
        none).openDentries → m.dentries d ≠ none := by
      intro d hd
      obtain ⟨D, hD⟩ := Mount.Counted.live horder hd
      rw [show m.dentries d = some D from hD]
      exact Option.some_ne_none D
    have hroot : m.root = s.vfs.root := (Mount.releaseLoop_spec hrelease).2.2.1
    have hf' : ({ s with vfs := m } : FsServer Mount ℕ).file 0 fd = some f := hf
    refine ⟨⟨horder, ⟨w', hshows'⟩, ?_, fun gd => ?_⟩, by simp only [Answer.wire, outcome]⟩
    · show m.num m.root = some 2
      rw [hnum _ (hlive _ (Multiset.mem_cons_self _ _)), hroot]
      exact h.root
    · have hfile := file_setFile_eq hf' none
      rw [hfile]
      by_cases hgd : gd = fd
      · subst hgd
        simp only [Image.setSlot, Function.update_self, Option.map_none]
      · simp only [Image.setSlot, Function.update_of_ne hgd]
        rw [h.table gd]
        show (s.file 0 gd).map (seen s.vfs) = (s.file 0 gd).map (seen m)
        cases hg : s.file 0 gd with
        | none => rfl
        | some g =>
          have hopen : (({ s with vfs := m } : FsServer Mount ℕ).setFile 0 fd none).file 0 gd =
              some g := by
            rw [hfile, Function.update_of_ne hgd]
            exact hg
          have hmem := mem_openDentries hopen
          simp only [Option.map_some, seen, hnum _ (hlive _ (Multiset.mem_cons_of_mem hmem))]

/-- The slot an open takes is the lowest free one. -/
theorem firstFree_of_openFile {path : String} {flags : UInt8}
    (h : s.openFile Mount.vfs 0 path flags = some (s', .ok fd)) :
    Slots.firstFree fdTableSize (s.file 0) = some fd := by
  have htable : Slots.firstFree fdTableSize (s.file 0) =
      Slots.firstFree fdTableSize ((s.fdTables 0).getD fun _ => none) := by
    refine Slots.firstFree_congr fun gd hgd => ?_
    unfold file FdTable.getFile
    cases s.fdTables 0 with
    | none => rfl
    | some t =>
      rw [Option.bind_some, if_pos hgd]
      rfl
  obtain ⟨⟨m, r⟩, -, h⟩ := Option.bind_eq_some_iff.mp h
  cases r with
  | error e => cases h
  | ok d =>
    dsimp only at h
    split at h
    · rename_i gd table halloc
      cases h
      obtain ⟨i, hi, heq⟩ := Option.map_eq_some_iff.mp halloc
      cases heq
      rw [htable]
      exact hi
    · obtain ⟨m₂, -, h⟩ := Option.bind_eq_some_iff.mp h
      cases h

theorem Presents.firstFree (h : Presents live attrs s i) :
    Slots.firstFree fdTableSize i.table = Slots.firstFree fdTableSize (s.file 0) :=
  Slots.firstFree_congr fun fd _ => by rw [h.table fd, Option.map_eq_none_iff]

theorem Presents.openFile (h : Presents live attrs s i) (hflush : s.vfs.CanFlush) {path : String}
    (hloads : Mount.WalkLoads live (components path.toList) (s.vfs.clone s.vfs.root) s.vfs.root)
    {flags : UInt8} {o : Except Errno ℕ}
    (hr : s.openFile Mount.vfs 0 path flags = some (s', o)) :
    ∃ answer i', i.openFile path flags = some (answer, i') ∧ Presents live attrs s' i' ∧
      answer.wire = outcome o fun fd => okResponse (BitVec.ofNat 64 fd) [] := by
  have horder := (h.order.openFile hr).1
  have hroot : s.vfs.root ∈ s.vfs.root ::ₘ s.openDentries := Multiset.mem_cons_self _ _
  obtain ⟨w, hshows⟩ := h.shows
  have hwalk {m : Mount} {r : Except Errno ℕ}
      (ho : Mount.vfs.openPath s.vfs path flags = some (m, r)) :
      ∃ w', Mount.Shows live attrs Mount.noLimbo m w' i.files ∧ w'.Flushable ∧
        m.root = s.vfs.root ∧
        (∀ d ∈ s.vfs.root ::ₘ s.openDentries, m.dentries d ≠ none → m.num d = s.vfs.num d) ∧
        i.openFile path flags = some (i.take (r.map fun e => m.num e)) := by
    change s.vfs.openPath path.toList flags = _ at ho
    obtain ⟨w', r₀, hshows', hflush', hresolve, hnode⟩ :=
      hshows.openPath (hshows.flushable hflush) h.order hroot hloads ho
    rw [h.root] at hresolve
    refine ⟨w', hshows', hflush', (Mount.openPath_spec h.order hroot ho).1, fun d hd hlive => ?_, ?_⟩
    swap
    · rw [Image.openFile, hresolve, Option.map_some, hnode]
    obtain ⟨D, hD⟩ := Mount.Counted.live h.order hd
    exact Mount.num_of_steps hshows hshows' (Mount.openPath_steps (Mount.walkFresh_of_loads hloads) ho)
      (Mount.openPath_walked h.order hroot ho) (Mount.Counted.bounded h.order hD) hlive
  have hlive {e : ℕ} (he : e ∈ s'.vfs.root ::ₘ s'.openDentries) : s'.vfs.dentries e ≠ none := by
    obtain ⟨E, hE⟩ := Mount.Counted.live horder he
    rw [hE]
    exact Option.some_ne_none E
  have hopened {fid : ℕ} {f : File ℕ} (hf : s.file 0 fid = some f) :
      f.dentry ∈ s.vfs.root ::ₘ s.openDentries :=
    Multiset.mem_cons_of_mem (mem_openDentries hf)
  rcases openFile_cases Mount.vfs hr with ⟨e, hopen, rfl, hfile⟩ |
    ⟨d, fid, hopen, rfl, hfree, hlt, hfile⟩ | ⟨m, d, hopen, hrelease, rfl, hfile, hfull⟩
  · -- the path leads nowhere
    obtain ⟨w', hshows', -, hsame, hnum, himage⟩ := hwalk hopen
    refine ⟨_, _, himage, ⟨horder, ⟨w', hshows'⟩, ?_, fun gd => ?_⟩, rfl⟩
    · rw [hnum _ (hsame ▸ hroot) (hlive (Multiset.mem_cons_self _ _)), hsame]
      exact h.root
    · rw [h.table gd, hfile]
      cases hg : s.file 0 gd with
      | none => rfl
      | some g =>
        have hgood := hlive (Multiset.mem_cons_of_mem (mem_openDentries (by rw [hfile, hg])))
        simp only [Option.map_some, seen, hnum _ (hopened hg) hgood]
  · -- a slot is taken
    obtain ⟨w', hshows', -, hsame, hnum, himage⟩ := hwalk hopen
    rw [Except.map, Image.take, h.firstFree, firstFree_of_openFile hr] at himage
    refine ⟨_, _, himage, ⟨horder, ⟨w', hshows'⟩, ?_, fun gd => ?_⟩, rfl⟩
    · rw [hnum _ (hsame ▸ hroot) (hlive (Multiset.mem_cons_self _ _)), hsame]
      exact h.root
    · rw [hfile]
      by_cases hgd : gd = fid
      · subst hgd
        simp only [Image.setSlot, Function.update_self, Option.map_some, seen]
      · simp only [Image.setSlot, Function.update_of_ne hgd]
        rw [h.table gd]
        cases hg : s.file 0 gd with
        | none => rfl
        | some g =>
          have hstays : s'.file 0 gd = some g := by rw [hfile, Function.update_of_ne hgd, hg]
          have hgood := hlive (Multiset.mem_cons_of_mem (mem_openDentries hstays))
          simp only [Option.map_some, seen, hnum _ (hopened hg) hgood]
  · -- there is no slot, and the entry goes again
    obtain ⟨w', hshows', hflush', hsame, hnum, himage⟩ := hwalk hopen
    have hnone : Slots.firstFree fdTableSize (s.file 0) = none := Slots.firstFree_eq_none.mpr hfull
    rw [Except.map, Image.take, h.firstFree, hnone] at himage
    change m.release d = some s'.vfs at hrelease
    obtain ⟨w₂, hshows₂, -⟩ := hshows'.release hflush' hrelease
    have hsame₂ : s'.vfs.root = s.vfs.root :=
      (Mount.releaseLoop_spec hrelease).2.2.1.trans hsame
    have hnum₂ {e : ℕ} (he : e ∈ s.vfs.root ::ₘ s.openDentries) (hgood : s'.vfs.dentries e ≠ none) :
        s'.vfs.num e = s.vfs.num e := by
      obtain ⟨-, -, -, hshed⟩ := Mount.releaseLoop_spec hrelease
      obtain ⟨E', hE'⟩ := Option.ne_none_iff_exists'.mp hgood
      obtain ⟨E, hE, -⟩ := hshed e E' hE'
      rw [Mount.num_of_release hrelease hgood]
      exact hnum e he (by rw [hE]; exact Option.some_ne_none E)
    refine ⟨_, _, himage, ⟨horder, ⟨w₂, hshows₂⟩, ?_, fun gd => ?_⟩, rfl⟩
    · rw [hnum₂ (hsame₂ ▸ hroot) (hlive (Multiset.mem_cons_self _ _)), hsame₂]
      exact h.root
    · rw [h.table gd, hfile]
      cases hg : s.file 0 gd with
      | none => rfl
      | some g =>
        have hgood := hlive (Multiset.mem_cons_of_mem (mem_openDentries (by rw [hfile, hg])))
        simp only [Option.map_some, seen, hnum₂ (hopened hg) hgood]

/-- One request: the response, and the server after it. -/
def reply (s : FsServer Mount ℕ) (r : Request) : Option (List UInt8 × FsServer Mount ℕ) :=
  (s.serve Mount.vfs r).map Prod.swap

/-- **One request** is answered as the ideal server answers it. -/
theorem respond_simulates : Simulation.Simulates reply (Image.respond (Mount.isDirNum attrs))
    (fun s r => r.Faithful live s) (Presents live attrs) := by
  intro s i r resp s' h hfaith hs
  obtain ⟨⟨s₁, resp₁⟩, hserve, heq⟩ := Option.map_eq_some_iff.mp hs
  cases heq
  -- the operation, its outcome, and the bytes of the outcome
  have hanswer {α : Type} {p : FsServer Mount ℕ × Except Errno α}
      {ok : α → Option (List UInt8)} {answer : Answer} {i' : Image}
      (hresp : respond p ok = some (s₁, resp₁)) (himage : i.serve (Mount.isDirNum attrs) r =
        some (answer, i')) (hpres : Presents live attrs p.1 i')
      (hwire : answer.wire = outcome p.2 ok) :
      ∃ i', i.respond (Mount.isDirNum attrs) r = some (resp₁, i') ∧ Presents live attrs s₁ i' := by
    rw [respond_eq] at hresp
    obtain ⟨b, hb, heq⟩ := Option.map_eq_some_iff.mp hresp
    cases heq
    exact ⟨i', Image.respond_of_serve himage (hwire.trans hb), hpres⟩
  cases r with
  | empty =>
    cases hserve
    exact ⟨i, @Image.respond_of_serve _ i i _ .nothing _ rfl rfl, h⟩
  | unknown op =>
    rw [serve] at hserve
    obtain ⟨b, hb, heq⟩ := Option.map_eq_some_iff.mp hserve
    cases heq
    exact ⟨i, @Image.respond_of_serve _ i i _ (.failed .ENOSYS) _ rfl hb, h⟩
  | openFile flags path =>
    obtain ⟨p, hop, hresp⟩ := Option.bind_eq_some_iff.mp hserve
    obtain ⟨answer, i', himage, hpres, hwire⟩ := h.openFile hfaith.1 hfaith.2 hop
    exact hanswer hresp himage hpres hwire
  | read fd count =>
    obtain ⟨p, hop, hresp⟩ := Option.bind_eq_some_iff.mp hserve
    obtain ⟨hpres, hwire⟩ := h.read hop
    exact hanswer hresp rfl hpres hwire
  | write fd data =>
    obtain ⟨p, hop, hresp⟩ := Option.bind_eq_some_iff.mp hserve
    obtain ⟨hpres, hwire⟩ := h.write hfaith hop
    exact hanswer hresp rfl hpres hwire
  | lseek fd offset whence =>
    obtain ⟨hpres, hwire⟩ := h.lseek offset whence
    exact hanswer hserve rfl hpres hwire
  | fstat fd => exact hanswer hserve rfl h h.fstat
  | getdents fd count =>
    obtain ⟨p, hop, hresp⟩ := Option.bind_eq_some_iff.mp hserve
    obtain ⟨answer, i', himage, hpres, hwire⟩ := h.getdents hop
    exact hanswer hresp himage hpres hwire
  | close fd =>
    obtain ⟨p, hop, hresp⟩ := Option.bind_eq_some_iff.mp hserve
    obtain ⟨hpres, hwire⟩ := h.close hfaith hop
    exact hanswer hresp rfl hpres hwire
  | readlink | create | unlink | rename => exact absurd hfaith id

/-! ## Runs -/

/-- The files in use on a volume, none of them in memory. -/
def filesOf (volume : Volume) (live : Finset ℕ) : World :=
  ⟨volume.fs, fun n => if n ∈ live then some (Ext4Inode.loadInode volume.fs n) else none⟩

/-- **A server that starts on a volume** presents its files, with no file open. -/
theorem presents_boot (volume : Volume) (attrs : ℕ → InodeAttr) (checksumSeed : UInt32)
    (live : Finset ℕ) (a : FileStore) (hstores : (filesOf volume live).Stores a)
    (hroot : 2 ∈ live) (hlinks : ∀ n f, a n = some f → f.links ≠ 0)
    (hdir : Mount.isDirNum attrs 2 = true) :
    Presents live attrs (boot volume attrs checksumSeed) ⟨a, fun _ => none⟩ := by
  have honly : ∀ d D, (boot volume attrs checksumSeed).vfs.dentries d = some D → d = 0 ∧
      D = ⟨['/'], none, fun _ => none, .directory,
        some ⟨Ext4Inode.loadInode volume.fs 2, attrs 2, none⟩, 1⟩ := by
    intro d D hD
    by_cases hd : d = 0
    · subst hd
      exact ⟨rfl, (Option.some.inj hD).symm⟩
    · simp [boot, Mount.new, hd] at hD
  have hinode : ∀ d c, (boot volume attrs checksumSeed).vfs.inodeAt d = some c →
      c = ⟨Ext4Inode.loadInode volume.fs 2, attrs 2, none⟩ := by
    intro d c hc
    obtain ⟨D, hD, hDc⟩ := Option.bind_eq_some_iff.mp hc
    obtain ⟨-, rfl⟩ := honly d D hD
    exact (Option.some.inj hDc).symm
  refine ⟨inOrder_boot .., ⟨filesOf volume live, ?_⟩, rfl, fun _ => rfl⟩
  refine ⟨⟨rfl, ?_, ?_, ?_, ?_, ?_⟩, inv_boot .., hstores, hlinks, rfl, ?_, ?_, ?_⟩
  · intro d c hc
    rw [hinode d c hc]
    exact if_pos hroot
  · intro n ino hlimbo
    cases hlimbo
  · exact fun n hn _ _ => if_pos hn
  · exact fun n hn => if_neg hn
  · intro n ino hn
    unfold filesOf at hn
    dsimp only at hn
    split at hn
    · cases hn
      rfl
    · cases hn
  · intro d c hc
    rw [hinode d c hc]
    rfl
  · intro d D hD
    obtain ⟨-, rfl⟩ := honly d D hD
    have hflags : DentryFlags.directory.contains .negative = false ∧
        DentryFlags.directory.contains .directory = true := by decide
    exact ⟨hflags.1, hflags.2.trans hdir.symm⟩
  · intro p P name c hP hc
    obtain ⟨-, rfl⟩ := honly p P hP
    cases hc

/-- **The server answers as the ideal one.**  A server starts on a volume whose files in use own
their blocks.  Along every run of requests that keep to the contents, its responses are, byte for
byte, those of the ideal server. -/
theorem server_refines (volume : Volume) (attrs : ℕ → InodeAttr) (checksumSeed : UInt32)
    (live : Finset ℕ) (a : FileStore) (hstores : (filesOf volume live).Stores a)
    (hroot : 2 ∈ live) (hlinks : ∀ n f, a n = some f → f.links ≠ 0)
    (hdir : Mount.isDirNum attrs 2 = true) (rs : List Request)
    (hfaith : Simulation.Along reply
      (fun s r => r.Faithful live s) (boot volume attrs checksumSeed) rs)
    (resps : List (List UInt8)) (s' : FsServer Mount ℕ)
    (hrun : Simulation.exec reply
      (boot volume attrs checksumSeed) rs = some (resps, s')) :
    ∃ i', Simulation.exec (Image.respond (Mount.isDirNum attrs)) ⟨a, fun _ => none⟩ rs =
      some (resps, i') ∧ Presents live attrs s' i' :=
  respond_simulates.exec
    (presents_boot volume attrs checksumSeed live a hstores hroot hlinks hdir) hfaith hrun

/-! ### The volume with one file -/

section OneFileVolume

set_option maxRecDepth 20000

/-- The directory and the empty file. -/
def oneFileStore : FileStore := fun n =>
  if n = 2 then some ⟨2, (Ext4Inode.loadInode oneFileFs 2).fileBytes oneFileFs⟩
  else if n = 12 then some ⟨1, []⟩
  else none

/-- The record of the directory: one extent, for block 10.  That block and the bitmap are in
use. -/
theorem oneFile_directory : (oneFileFs.inodeTable 2).hasInlineData = false ∧
    Ext4.Ext4ExtentBlock.extentHeader (oneFileFs.inodeTable 2).block =
      { Ext4.Ext4ExtentHeader.newRoot with entries := 1 } ∧
    Ext4.Ext4ExtentBlock.extents (oneFileFs.inodeTable 2).block = [Ext4.Ext4Extent.new 0 1 10] ∧
    (oneFileFs.inodeTable 2).liveExtents oneFileFs = [Ext4.Ext4Extent.new 0 1 10] ∧
    (oneFileFs.inodeTable 2).owned oneFileFs = [10] ∧
    oneFileFs.used 10 = true ∧ oneFileFs.used 3 = true := by
  decide +kernel

theorem oneFileFs_sound : oneFileFs.Sound := by
  refine ⟨rfl, by decide, by decide, by decide, by decide, fun x hx => ?_⟩
  rw [show x = 3 by simpa [Ext4FileSystem.bitmaps, oneFileFs] using hx]
  obtain ⟨-, -, -, -, -, -, hbitmap⟩ := oneFile_directory
  exact hbitmap

/-- An inode that was just loaded holds what is on the device. -/
theorem holds_loadInode {fs : Ext4FileSystem} {n : ℕ}
    (hsize : (Ext4Inode.loadInode fs n).getSize < 2 ^ 32)
    (hflags : (fs.inodeTable n).extentsFl = !(fs.inodeTable n).inlineDataFl)
    (htree : (fs.inodeTable n).hasInlineData = false → (fs.inodeTable n).TreeOk fs)
    (hzero : ∀ i < 2 ^ 32, ∀ j < Ext4.pageSize,
      (Ext4Inode.loadInode fs n).getSize ≤ i * Ext4.pageSize + j →
        (fs.inodeTable n).diskPage fs i j = 0) :
    (Ext4Inode.loadInode fs n).Holds fs ((Ext4Inode.loadInode fs n).fileBytes fs) := by
  have hempty : ∀ i : ℕ, (Ext4Inode.loadInode fs n).pages[i]? = none := fun i => by
    simp [Ext4Inode.loadInode]
  have hseals : (1 : ℕ) &&& 2 = 0 ∧ (1 : ℕ) &&& 4 = 0 := by decide
  refine ⟨⟨hseals, hsize, hflags, htree, fun i _ p hp => ?_⟩,
    fun i hi j hj hn => ?_, rfl⟩
  · rw [hempty] at hp
    cases hp
  · rw [Ext4Inode.pageAt, hempty]
    exact ⟨hzero i hi j hj hn, hzero i hi j hj hn⟩

theorem oneFile_directory_holds : (Ext4Inode.loadInode oneFileFs 2).Holds oneFileFs
    ((Ext4Inode.loadInode oneFileFs 2).fileBytes oneFileFs) := by
  obtain ⟨hinline, hheader, hextents, -⟩ := oneFile_directory
  have hdepth : (Ext4.Ext4ExtentBlock.extentHeader (oneFileFs.inodeTable 2).block).depth = 0 := by
    rw [hheader]
    rfl
  have hone : Ext4.Ext4Extent.Ordered [Ext4.Ext4Extent.new 0 1 10] := by
    refine ⟨List.pairwise_singleton _ _, ?_, ?_⟩ <;>
    · intro e he
      rw [List.mem_singleton.mp he]
      decide
  have hmax : (Ext4.Ext4ExtentBlock.extentHeader (oneFileFs.inodeTable 2).block).max = 4 := by
    rw [hheader]
    rfl
  refine holds_loadInode (by decide) rfl (fun _ => ?_) fun i hi j hj hn => ?_
  · exact .of_leaf hdepth (by rw [hextents]; exact hone) hmax
  · -- behind the first page there is no extent
    have hpos : 1 ≤ i := by
      have hsize : (Ext4Inode.loadInode oneFileFs 2).getSize = 4096 := rfl
      rw [hsize] at hn
      unfold Ext4.pageSize at hn hj
      omega
    have hnone : (oneFileFs.inodeTable 2).physicalAt oneFileFs (UInt32.ofNat i) = none := by
      rw [Ext4.Ext4InodeDisk.physicalAt_eq_none,
        Ext4.Ext4InodeDisk.lookupExtent_root hdepth, hextents, List.find?_eq_none]
      intro e he hcovers
      rw [List.mem_singleton.mp he, Ext4.Ext4Extent.covers_iff (by decide)] at hcovers
      have hstop : (Ext4.Ext4Extent.new 0 1 10).stop = 1 := by decide
      rw [hstop, UInt32.toNat_ofNat_of_lt' (by omega)] at hcovers
      omega
    rw [Ext4.Ext4InodeDisk.diskPage, hinline, hnone]
    rfl

theorem oneFile_file_holds : (Ext4Inode.loadInode oneFileFs 12).Holds oneFileFs [] := by
  refine holds_loadInode (by decide) rfl (fun hinline => ?_) fun i hi j hj _ => ?_
  · cases hinline
  · have hflag : (oneFileFs.inodeTable 12).hasInlineData = true := rfl
    rw [Ext4.Ext4InodeDisk.diskPage, if_pos hflag]
    split
    · simp only [Ext4.newInlinePageCache, oneFileFs]
      split <;> rfl
    · rfl

/-- The two inodes in use. -/
theorem oneFile_files {n : ℕ} {ino : Ext4Inode} (h : (filesOf oneFileVolume {2, 12}).files n =
    some ino) : n = 2 ∧ ino = Ext4Inode.loadInode oneFileFs 2 ∨
      n = 12 ∧ ino = Ext4Inode.loadInode oneFileFs 12 := by
  unfold filesOf at h
  dsimp only at h
  split at h
  · rename_i hmem
    cases h
    rw [Finset.mem_insert, Finset.mem_singleton] at hmem
    rcases hmem with rfl | rfl
    · exact Or.inl ⟨rfl, rfl⟩
    · exact Or.inr ⟨rfl, rfl⟩
  · cases h

theorem oneFile_stores : (filesOf oneFileVolume {2, 12}).Stores oneFileStore := by
  obtain ⟨hinline, hheader, -, hlive, howned, hused, -⟩ := oneFile_directory
  have hempty : (oneFileFs.inodeTable 12).owned oneFileFs = [] := rfl
  have howns : ∀ n ino, (filesOf oneFileVolume {2, 12}).files n = some ino → ∀ x ∈
      ino.inodeOnDisk.owned (filesOf oneFileVolume {2, 12}).fs, n = 2 ∧ x = 10 := by
    intro n ino hn x hx
    rcases oneFile_files hn with ⟨rfl, rfl⟩ | ⟨rfl, rfl⟩
    · change x ∈ (oneFileFs.inodeTable 2).owned oneFileFs at hx
      rw [howned, List.mem_singleton] at hx
      exact ⟨rfl, hx⟩
    · change x ∈ (oneFileFs.inodeTable 12).owned oneFileFs at hx
      rw [hempty] at hx
      cases hx
  refine ⟨⟨oneFileFs_sound, ?_, ?_, ?_, ?_, ?_⟩, ?_, ?_⟩
  · intro n ino hn
    rcases oneFile_files hn with ⟨rfl, rfl⟩ | ⟨rfl, rfl⟩
    · refine ⟨fun _ => rfl, fun hi => ?_, fun _ => ?_, fun e he => ?_⟩
      · change (oneFileFs.inodeTable 2).hasInlineData = true at hi
        rw [hinline] at hi
        cases hi
      · have hfits : (Ext4.Ext4ExtentBlock.extentHeader (oneFileFs.inodeTable 2).block).entries.toNat ≤
            (Ext4.Ext4ExtentBlock.extentHeader (oneFileFs.inodeTable 2).block).max.toNat ∧
            (Ext4.Ext4ExtentBlock.extentHeader (oneFileFs.inodeTable 2).block).max.toNat ≤ 4 := by
          rw [hheader]
          decide
        exact fun _ => hfits
      · change e ∈ (oneFileFs.inodeTable 2).liveExtents oneFileFs at he
        rw [hlive] at he
        rw [List.mem_singleton.mp he]
        decide
    · refine ⟨fun hflag => ?_, fun _ => by decide, fun hi => ?_, fun e he => ?_⟩
      · cases hflag
      · cases hi
      · cases he
  · intro n ino hn x hx
    obtain ⟨-, rfl⟩ := howns n ino hn x hx
    exact hused
  · intro n ino hn x hx
    obtain ⟨-, rfl⟩ := howns n ino hn x hx
    decide
  · intro n ino hn
    rcases oneFile_files hn with ⟨rfl, rfl⟩ | ⟨rfl, rfl⟩
    · change ((oneFileFs.inodeTable 2).owned oneFileFs).Nodup
      rw [howned]
      exact List.nodup_singleton 10
    · change ((oneFileFs.inodeTable 12).owned oneFileFs).Nodup
      rw [hempty]
      exact List.nodup_nil
  · intro i j ino ino' hne hi hj x hx hx'
    exact hne ((howns i ino hi x hx).1.trans (howns j ino' hj x hx').1.symm)
  · intro n ino hn
    rcases oneFile_files hn with ⟨rfl, rfl⟩ | ⟨rfl, rfl⟩
    · exact ⟨_, rfl, oneFile_directory_holds, rfl⟩
    · exact ⟨_, rfl, oneFile_file_holds, rfl⟩
  · intro n hn
    unfold filesOf at hn
    dsimp only at hn
    split at hn
    · cases hn
    · rename_i hmem
      rw [Finset.mem_insert, Finset.mem_singleton, not_or] at hmem
      rw [oneFileStore, if_neg hmem.1, if_neg hmem.2]

/-- A byte is written to the file, read back through the same descriptor, and the file closed. -/
def writtenAndRead : List Request :=
  [.openFile 0 "/f", .write 0 [7], .lseek 0 0 .set, .read 0 4, .close 0]

theorem oneFile_runs :
    (Simulation.exec reply oneFileBoot
      (writtenAndRead.take 1)).all (fun p => decide (p.2.vfs.nextDentry = 2) &&
        (p.2.file 0 0).all fun f => decide (f.pos = 0 ∧ f.dentry = 1)) = true ∧
    (Simulation.exec reply oneFileBoot
      (writtenAndRead.take 4)).all (fun p => decide (p.2.vfs.nextDentry = 2 ∧
        ∀ d < 2, (p.2.vfs.inodeAt d).all fun c =>
          decide (Ext4Inode.Flushable p.2.vfs.volume.fs c.ext4))) = true ∧
    (Simulation.exec reply oneFileBoot
      writtenAndRead).map (fun p => p.1.map fun resp => resp.take 17) =
      some [List.replicate 17 0, 0 :: 0 :: 0 :: 0 :: 0 :: 0 :: 0 :: 0 :: 1 :: List.replicate 8 0,
        List.replicate 17 0,
        0 :: 0 :: 0 :: 0 :: 0 :: 0 :: 0 :: 0 :: 1 :: 0 :: 0 :: 0 :: 0 :: 0 :: 0 :: 0 :: [7],
        List.replicate 17 0] := by
  decide +kernel

theorem step_of_reply {s s' : FsServer Mount ℕ} {r : Request} {resp : List UInt8}
    (h : s.reply r = some (resp, s')) : s.step r = some s' := by
  obtain ⟨p, hp, heq⟩ := Option.map_eq_some_iff.mp h
  cases heq
  rw [step, hp, Option.map_some]

/-- The entries of a small mount can be gone through. -/
theorem canFlush_of_small {s : FsServer Mount ℕ} (horder : InOrder s) (hsmall : s.vfs.nextDentry = 2)
    (hall : ∀ d < 2, (s.vfs.inodeAt d).all fun c =>
      decide (Ext4Inode.Flushable s.vfs.volume.fs c.ext4)) : s.vfs.CanFlush := by
  intro d c hc
  obtain ⟨D, hD, -⟩ := Option.bind_eq_some_iff.mp hc
  have hlt := Mount.Counted.bounded horder hD
  have := hall d (by rw [← hsmall]; exact hlt)
  rw [hc, Option.all_some] at this
  exact of_decide_eq_true this

theorem oneFile_linked : ∀ n f, oneFileStore n = some f → f.links ≠ 0 := by
  intro n f hf
  unfold oneFileStore at hf
  split at hf
  · cases hf
    exact (by decide : (2 : UInt16) ≠ 0)
  · split at hf
    · cases hf
      exact (by decide : (1 : UInt16) ≠ 0)
    · cases hf

theorem server_refines_oneFile : ∃ resps s' i',
    Simulation.exec reply oneFileBoot writtenAndRead =
      some (resps, s') ∧
    Simulation.exec (Image.respond (Mount.isDirNum fun n => ⟨if n = 2 then 0x41ED else 0x81A4, 0⟩))
      ⟨oneFileStore, fun _ => none⟩ writtenAndRead = some (resps, i') ∧
    resps.map (fun resp => resp.getD 16 0) = [0, 0, 0, 7, 0] := by
  obtain ⟨hopen, hclose, hresps⟩ := oneFile_runs
  obtain ⟨⟨resps, s'⟩, hrun, hbytes⟩ := Option.map_eq_some_iff.mp hresps
  have horder := inOrder_boot oneFileVolume (fun n => ⟨if n = 2 then 0x41ED else 0x81A4, 0⟩) 0
  have hfaith : Simulation.Along reply
      (fun s r => Request.Faithful {2, 12} s r) oneFileBoot writtenAndRead := by
    refine ⟨⟨?_, ?_⟩, fun b₁ s₁ h₁ => ⟨?_, fun b₂ s₂ h₂ => ⟨trivial, fun b₃ s₃ h₃ =>
      ⟨trivial, fun b₄ s₄ h₄ => ⟨?_, fun _ _ _ => trivial⟩⟩⟩⟩⟩
    · intro d c hc
      obtain ⟨D, hD, hDc⟩ := Option.bind_eq_some_iff.mp hc
      by_cases hd : d = 0
      · subst hd
        cases hD
        cases hDc
        exact Ext4Inode.flushable_loadInode 2
      · simp [oneFileBoot, boot, Mount.new, hd] at hD
    · have hcomponents : components "/f".toList = [['f']] := by decide
      rw [hcomponents]
      refine ⟨fun n hn => ?_, fun _ _ _ _ _ => trivial⟩
      obtain rfl : 12 = n := Option.some.inj (loads_openings.1.symm.trans hn)
      exact ⟨by decide, absent_boot⟩
    · -- the new entry is the last one, so it has no children
      intro f hf
      have horder₁ := horder.step (step_of_reply h₁)
      have hexec : Simulation.exec reply oneFileBoot (writtenAndRead.take 1) = some ([b₁], s₁) := by
        simp only [writtenAndRead, List.take, Simulation.exec, h₁, Option.map_some]
      rw [hexec, Option.all_some, Bool.and_eq_true, decide_eq_true_eq] at hopen
      obtain ⟨hsmall, hfile⟩ := hopen
      change s₁.vfs.nextDentry = 2 at hsmall
      change s₁.file 0 0 = some f at hf
      rw [hf, Option.all_some, decide_eq_true_eq] at hfile
      refine ⟨by rw [hfile.1]; decide, fun D name e hD he => ?_⟩
      obtain ⟨hlt, hparent⟩ := Mount.Counted.children horder₁ _ D name e hD he
      cases hE : s₁.vfs.dentries e with
      | none => rfl
      | some E =>
        have := (Mount.Counted.parent horder₁ hE (hparent E hE)).1
        omega
    · have horder₄ := (((horder.step (step_of_reply h₁)).step (step_of_reply h₂)).step
        (step_of_reply h₃)).step (step_of_reply h₄)
      have hexec : Simulation.exec reply oneFileBoot (writtenAndRead.take 4) =
          some ([b₁, b₂, b₃, b₄], s₄) := by
        simp only [writtenAndRead, List.take, Simulation.exec, h₁, h₂, h₃, h₄, Option.map_some]
      rw [hexec, Option.all_some, decide_eq_true_eq] at hclose
      exact canFlush_of_small horder₄ hclose.1 hclose.2
  obtain ⟨i', himage, -⟩ := server_refines oneFileVolume _ 0 {2, 12} oneFileStore oneFile_stores
    (by decide) oneFile_linked (by decide) writtenAndRead hfaith resps s' hrun
  refine ⟨resps, s', i', hrun, himage, ?_⟩
  have hseventeenth : resps.map (fun resp => resp.getD 16 0) =
      (resps.map fun resp => resp.take 17).map fun resp => resp.getD 16 0 := by
    rw [List.map_map]
    refine List.map_congr_left fun resp _ => ?_
    simp
  rw [hseventeenth, hbytes]
  decide

end OneFileVolume

end FsServer

end QuackOS.Fs
