import QuackOS.Fs.MountInvariant
import QuackOS.Lib.Run

/-!
# Open files of one inode

Two open files of one inode are to show the same contents.  They do when they hold the same
inode in memory, and the server makes sure of that only through the directory cache.

* `Request.Fresh` — the requests that load and take only numbers that are not in memory;
* `Coherent` — one inode in memory for each number; its open files agree on the size and on
  every read, and what is written through one of them is read through all of them;
* `coherent_run` — every run of fresh requests leads to a coherent state.

A path with a dot in it is not fresh: the directory is loaded a second time, and with it the
file (`dot_path_incoherent`).
-/

namespace QuackOS.Fs

variable {s s' s₁ s₂ : FsServer Mount ℕ} {r : Request} {resp : List UInt8} {d n : ℕ}

/-- The request loads and takes only numbers that are not in memory. -/
def Request.Fresh (s : FsServer Mount ℕ) : Request → Prop
  | .openFile _ path => s.vfs.PathFresh path.toList
  | .readlink path => s.vfs.LinkFresh path.toList
  | .create _ path => s.vfs.CreateFresh path.toList
  | .unlink path => s.vfs.PathFresh path.toList
  | .rename oldPath newPath => s.vfs.RenameFresh oldPath.toList newPath.toList
  | _ => True

/-- The entries a request writes to: the file of a write, the directories whose entries change,
and a file that is made. -/
def Request.writes (s : FsServer Mount ℕ) : Request → Set ℕ
  | .write fd _ => {d | ∃ f, s.file 0 fd.toNat = some f ∧ f.dentry = d}
  | .create _ path => s.vfs.createWrites path.toList
  | .unlink path => s.vfs.unlinkWrites path.toList
  | .rename oldPath newPath => s.vfs.renameWrites oldPath.toList newPath.toList
  | _ => ∅

namespace FsServer

/-- A request of a run. -/
def step (s : FsServer Mount ℕ) (r : Request) : Option (FsServer Mount ℕ) :=
  (s.serve Mount.vfs r).map Prod.fst

theorem fst_of_respond {σ δ α : Type} {p : FsServer σ δ × Except Errno α}
    {ok : α → Option (List UInt8)} {s' : FsServer σ δ} (h : respond p ok = some (s', resp)) :
    s' = p.1 := by
  unfold respond at h
  split at h
  · obtain ⟨_, -, heq⟩ := Option.map_eq_some_iff.mp h
    exact (Prod.mk.inj heq).1.symm
  · obtain ⟨_, -, heq⟩ := Option.map_eq_some_iff.mp h
    exact (Prod.mk.inj heq).1.symm

@[simp] theorem vfs_setFile {σ δ : Type} (s : FsServer σ δ) (pid fd : ℕ) (f : Option (File δ)) :
    (s.setFile pid fd f).vfs = s.vfs := rfl

/-! ## How a request goes -/

/-- The file systems have changed, and of the open files a cursor at most. -/
def Moves (s : FsServer Mount ℕ) (m : Mount) (fd : ℕ) (f : File ℕ) (s' : FsServer Mount ℕ) : Prop :=
  s' = { s with vfs := m } ∨
    ∃ pos, s' = ({ s with vfs := m } : FsServer Mount ℕ).setFile 0 fd (some { f with pos })

theorem Moves.vfs {m : Mount} {fd : ℕ} {f : File ℕ} (h : Moves s m fd f s') : s'.vfs = m := by
  rcases h with rfl | ⟨pos, rfl⟩ <;> rfl

/-- The ways of a request, with what it does to the file systems and to the open files. -/
inductive Going (s : FsServer Mount ℕ) : Request → FsServer Mount ℕ → Prop
  | nothing {r : Request} : Going s r s
  | seeks {r : Request} {fd : ℕ} {f : File ℕ} (hf : s.file 0 fd = some f) (pos : ℕ) :
      Going s r (s.setFile 0 fd (some { f with pos }))
  | openFile {flags : UInt8} {path : String} {s' : FsServer Mount ℕ} {o : Except Errno ℕ}
      (hop : s.openFile Mount.vfs 0 path flags = some (s', o)) : Going s (.openFile flags path) s'
  | close {fd : BitVec 64} {f : File ℕ} {m : Mount} (hf : s.file 0 fd.toNat = some f)
      (rel : s.vfs.release f.dentry = some m) :
      Going s (.close fd) (({ s with vfs := m } : FsServer Mount ℕ).setFile 0 fd.toNat none)
  | read {r : Request} {fd off n : ℕ} {f : File ℕ} {m : Mount} {s' : FsServer Mount ℕ}
      {o : Except Errno (List UInt8)} (hf : s.file 0 fd = some f)
      (op : s.vfs.read f.dentry off n = some (m, o)) (hmoves : Moves s m fd f s') : Going s r s'
  | write {fd : BitVec 64} {data bytes : List UInt8} {off : ℕ} {f : File ℕ} {m : Mount}
      {s' : FsServer Mount ℕ} {o : Except Errno ℕ} (hf : s.file 0 fd.toNat = some f)
      (op : s.vfs.write f.dentry off bytes = some (m, o)) (hmoves : Moves s m fd.toNat f s') :
      Going s (.write fd data) s'
  | getdents {r : Request} {fd off n : ℕ} {f : File ℕ} {m : Mount} {s' : FsServer Mount ℕ}
      {o : Option (ℕ × List UInt8)} (hf : s.file 0 fd = some f)
      (op : s.vfs.getdents f.dentry off n = some (m, o)) (hmoves : Moves s m fd f s') : Going s r s'
  | readlink {path : String} {m : Mount} {o : Except Errno Ext4.Name}
      (op : s.vfs.readlink path.toList = some (m, o)) : Going s (.readlink path) { s with vfs := m }
  | create {mode : BitVec 64} {path : String} {bits : UInt16} {m : Mount} {o : Except Errno Unit}
      (op : s.vfs.create path.toList bits = some (m, o)) :
      Going s (.create mode path) { s with vfs := m }
  | unlink {path : String} {m : Mount} {o : Except Errno Unit}
      (op : s.vfs.unlink path.toList = some (m, o)) : Going s (.unlink path) { s with vfs := m }
  | rename {oldPath newPath : String} {m : Mount} {o : Except Errno Unit}
      (op : s.vfs.rename oldPath.toList newPath.toList = some (m, o)) :
      Going s (.rename oldPath newPath) { s with vfs := m }

/-- **Every request goes one of these ways.** -/
theorem step_goes (h : s.step r = some s') : Going s r s' := by
  obtain ⟨⟨s₁, resp⟩, hserve, rfl⟩ := Option.map_eq_some_iff.mp h
  cases r with
  | empty =>
    cases hserve
    exact .nothing
  | unknown op =>
    simp only [serve] at hserve
    obtain ⟨_, -, heq⟩ := Option.map_eq_some_iff.mp hserve
    cases heq
    exact .nothing
  | fstat fd =>
    rw [fst_of_respond hserve]
    exact .nothing
  | openFile flags path =>
    obtain ⟨⟨s₂, o⟩, hop, hserve⟩ := Option.bind_eq_some_iff.mp hserve
    rw [fst_of_respond hserve]
    exact .openFile hop
  | close fd =>
    obtain ⟨⟨s₂, o⟩, hop, hserve⟩ := Option.bind_eq_some_iff.mp hserve
    rw [fst_of_respond hserve]
    unfold close at hop
    split at hop
    · cases hop
      exact .nothing
    · rename_i f hf
      obtain ⟨m, rel, hop⟩ := Option.bind_eq_some_iff.mp hop
      cases hop
      exact .close hf rel
  | lseek fd offset whence =>
    rw [fst_of_respond hserve]
    unfold lseek
    split
    · exact .nothing
    · rename_i f hf
      split
      · exact .nothing
      · exact .seeks hf _
  | read fd count =>
    obtain ⟨⟨s₂, o⟩, hop, hserve⟩ := Option.bind_eq_some_iff.mp hserve
    rw [fst_of_respond hserve]
    unfold read at hop
    split at hop
    · cases hop
      exact .nothing
    · rename_i f hf
      obtain ⟨⟨m, o₁⟩, hread, hop⟩ := Option.bind_eq_some_iff.mp hop
      cases o₁ with
      | error e =>
        cases hop
        exact .read hf hread (Or.inl rfl)
      | ok bs =>
        cases hop
        exact .read hf hread (Or.inr ⟨_, rfl⟩)
  | write fd data =>
    obtain ⟨⟨s₂, o⟩, hop, hserve⟩ := Option.bind_eq_some_iff.mp hserve
    rw [fst_of_respond hserve]
    unfold write at hop
    split at hop
    · cases hop
      exact .nothing
    · rename_i f hf
      obtain ⟨⟨m, o₁⟩, hwrite, hop⟩ := Option.bind_eq_some_iff.mp hop
      cases o₁ with
      | error e =>
        cases hop
        exact .write hf hwrite (Or.inl rfl)
      | ok n =>
        cases hop
        exact .write hf hwrite (Or.inr ⟨_, rfl⟩)
  | getdents fd count =>
    obtain ⟨⟨s₂, o⟩, hop, hserve⟩ := Option.bind_eq_some_iff.mp hserve
    rw [fst_of_respond hserve]
    unfold getdents at hop
    split at hop
    · cases hop
      exact .nothing
    · rename_i f hf
      split at hop
      · obtain ⟨⟨m, o₁⟩, hdents, hop⟩ := Option.bind_eq_some_iff.mp hop
        cases o₁ with
        | none =>
          cases hop
          exact .getdents hf hdents (Or.inl rfl)
        | some p =>
          cases hop
          exact .getdents hf hdents (Or.inr ⟨_, rfl⟩)
      · cases hop
        exact .nothing
  | readlink path =>
    obtain ⟨⟨m, o⟩, hop, hserve⟩ := Option.bind_eq_some_iff.mp hserve
    obtain ⟨⟨m', o'⟩, hlink, heq⟩ := Option.map_eq_some_iff.mp hop
    cases heq
    rw [fst_of_respond hserve]
    exact .readlink hlink
  | create mode path =>
    obtain ⟨⟨m, o⟩, hop, hserve⟩ := Option.bind_eq_some_iff.mp hserve
    rw [fst_of_respond hserve]
    exact .create hop
  | unlink path =>
    obtain ⟨⟨m, o⟩, hop, hserve⟩ := Option.bind_eq_some_iff.mp hserve
    rw [fst_of_respond hserve]
    exact .unlink hop
  | rename oldPath newPath =>
    obtain ⟨⟨m, o⟩, hop, hserve⟩ := Option.bind_eq_some_iff.mp hserve
    rw [fst_of_respond hserve]
    exact .rename hop

/-! ## Steps -/

theorem openFile_steps {path : String} {flags : UInt8} {r : Except Errno ℕ}
    (hfresh : s.vfs.PathFresh path.toList)
    (h : s.openFile Mount.vfs 0 path flags = some (s', r)) : Mount.Steps ∅ s.vfs s'.vfs := by
  obtain ⟨⟨m, r₁⟩, hopen, h⟩ := Option.bind_eq_some_iff.mp h
  have hm : Mount.Steps ∅ s.vfs m := Mount.openPath_steps hfresh hopen
  cases r₁ with
  | error e =>
    cases h
    exact hm
  | ok d =>
    dsimp only at h
    split at h
    · cases h
      exact hm
    · obtain ⟨m₂, hrel, h⟩ := Option.bind_eq_some_iff.mp h
      cases h
      exact hm.trans (Mount.release_steps hrel)

theorem write_steps {fd : ℕ} {data : List UInt8} {r : Except Errno ℕ}
    (h : s.write Mount.vfs 0 fd data = some (s', r)) :
    Mount.Steps {d | ∃ f, s.file 0 fd = some f ∧ f.dentry = d} s.vfs s'.vfs := by
  unfold write at h
  split at h
  · cases h
    exact .refl _
  · rename_i f hf
    obtain ⟨⟨m, r₁⟩, hwrite, h⟩ := Option.bind_eq_some_iff.mp h
    have hm : Mount.Steps {d | ∃ f, s.file 0 fd = some f ∧ f.dentry = d} s.vfs m := by
      refine (Mount.write_steps hwrite).mono ?_
      rintro d rfl
      exact ⟨f, hf, rfl⟩
    cases r₁ <;>
    · cases h
      exact hm

/-- **A fresh request** keeps the invariant, and the inodes of the entries it does not write
to. -/
theorem step_steps (hfresh : r.Fresh s) (h : s.step r = some s') :
    Mount.Steps (r.writes s) s.vfs s'.vfs := by
  cases step_goes h with
  | nothing => exact .refl _
  | seeks => exact .refl _
  | openFile hop => exact openFile_steps hfresh hop
  | close hf rel => exact Mount.release_steps rel
  | read hf op hmoves =>
    rw [hmoves.vfs]
    exact Mount.read_steps op
  | write hf op hmoves =>
    rw [hmoves.vfs]
    refine (Mount.write_steps op).mono ?_
    rintro d rfl
    exact ⟨_, hf, rfl⟩
  | getdents hf op hmoves =>
    rw [hmoves.vfs]
    exact Mount.getdents_steps op
  | readlink op => exact Mount.readlink_steps hfresh op
  | create op => exact Mount.create_steps hfresh op
  | unlink op => exact Mount.unlink_steps hfresh op
  | rename op => exact Mount.rename_steps hfresh op

/-! ## Coherence -/

/-- The number of the inode behind a descriptor. -/
def inodeNum (s : FsServer Mount ℕ) (fd : ℕ) : Option ℕ :=
  (s.file 0 fd).bind fun f => s.vfs.num f.dentry

/-- The file stays below `2 ^ 32` bytes with this write. -/
def Fits (s : FsServer Mount ℕ) (fd : ℕ) (data : List UInt8) : Prop :=
  ∀ f c, s.file 0 fd = some f → s.vfs.inodeAt f.dentry = some c →
    c.ext4.sizeAfter (f.pos + data.length) < 2 ^ 32

/-- The request leaves the `len` bytes from `pos` on of the entry's file alone. -/
def Spares (s : FsServer Mount ℕ) (d pos len : ℕ) : Request → Prop
  | .write fd data => ∀ f, s.file 0 fd.toNat = some f → f.dentry = d →
    (pos + len ≤ f.pos ∨ f.pos + data.length ≤ pos) ∧ s.Fits fd.toNat data
  | r => d ∉ r.writes s

/-- Whatever happens next, as long as the requests are fresh and none of them overwrites `data`
at `pos` in the file of the entry `d`, whose inode has number `n`: while that inode is in
memory, `data` is what every file open on number `n` reads at `pos`. -/
def Lasts (s : FsServer Mount ℕ) (d n pos : ℕ) (data : List UInt8) : Prop :=
  ∀ rs s', Run.AlongSome step (fun s r => r.Fresh s ∧ s.Spares d pos data.length r) s rs →
    rs.foldlM step s = some s' → s'.vfs.num d = some n →
      ∀ fd f, s'.file 0 fd = some f → s'.inodeNum fd = some n → f.pos = pos →
        ∃ s'', s'.read Mount.vfs 0 fd data.length = some (s'', .ok data)

/-- **Coherence.** -/
structure Coherent (s : FsServer Mount ℕ) : Prop where
  /-- There is one inode in memory for each number. -/
  one : ∀ d e n, s.vfs.num d = some n → s.vfs.num e = some n → d = e
  /-- The sizes two open files of one inode report are the same. -/
  size : ∀ fd gd n, s.inodeNum fd = some n → s.inodeNum gd = some n →
    s.fstat Mount.vfs 0 fd = s.fstat Mount.vfs 0 gd
  /-- From one position they read the same. -/
  reads : ∀ fd gd n f g count, s.inodeNum fd = some n → s.inodeNum gd = some n →
    s.file 0 fd = some f → s.file 0 gd = some g → f.pos = g.pos →
      (s.read Mount.vfs 0 fd count).map Prod.snd = (s.read Mount.vfs 0 gd count).map Prod.snd
  /-- What is written through one of them is read through all of them. -/
  written : ∀ fd f n data s' k, s.file 0 fd = some f → s.inodeNum fd = some n → s.Fits fd data →
    s.write Mount.vfs 0 fd data = some (s', .ok k) →
      k = data.length ∧ s'.Lasts f.dentry n f.pos data

/-- The entry shows `data` at `pos`, for as long as it is in memory. -/
structure Shown (d n pos : ℕ) (data : List UInt8) (s : FsServer Mount ℕ) : Prop where
  inv : s.vfs.Inv
  lt : d < s.vfs.nextDentry
  shows : ∀ D, s.vfs.dentries d = some D → ∃ c, D.inode = some c ∧ c.ext4.inodeNum = n ∧
    c.ext4.Shows pos (data.map UInt8.toBitVec)

variable {pos : ℕ} {data : List UInt8}

/-- A step that keeps the inode of the entry. -/
theorem Shown.of_steps {W : Set ℕ} (h : Shown d n pos data s)
    (hsteps : Mount.Steps W s.vfs s'.vfs) (hd : d ∉ W) : Shown d n pos data s' := by
  refine ⟨hsteps.inv h.inv, h.lt.trans_le hsteps.le, fun D' hD' => ?_⟩
  obtain ⟨D, hD, hkept⟩ := hsteps.old d h.lt D' hD'
  obtain ⟨c, hc, hnum, hshows⟩ := h.shows D hD
  obtain ⟨c', hc', hk⟩ := hkept hd c hc
  exact ⟨c', hc', hk.inodeNum.trans hnum, hk.shows hshows⟩

/-- A write to another place of the file, or to another file. -/
theorem Shown.write (h : Shown d n pos data s) {fd : ℕ} {buf : List UInt8} {r : Except Errno ℕ}
    (hspare : ∀ f, s.file 0 fd = some f → f.dentry = d →
      (pos + data.length ≤ f.pos ∨ f.pos + buf.length ≤ pos) ∧ s.Fits fd buf)
    (hw : s.write Mount.vfs 0 fd buf = some (s', r)) : Shown d n pos data s' := by
  have hsteps := write_steps hw
  by_cases hd : ∃ f, s.file 0 fd = some f ∧ f.dentry = d
  · obtain ⟨f, hf, rfl⟩ := hd
    obtain ⟨hout, hfits⟩ := hspare f hf rfl
    refine ⟨hsteps.inv h.inv, h.lt.trans_le hsteps.le, fun D' hD' => ?_⟩
    obtain ⟨D, hD, -⟩ := hsteps.old f.dentry h.lt D' hD'
    obtain ⟨c, hc, hnum, hshows⟩ := h.shows D hD
    have hinode : s.vfs.inodeAt f.dentry = some c := by
      rw [Mount.inodeAt, hD]
      exact hc
    unfold FsServer.write at hw
    rw [hf] at hw
    obtain ⟨⟨m, r₁⟩, hwrite, hw⟩ := Option.bind_eq_some_iff.mp hw
    obtain ⟨k, ino, fs, hino, rfl, hafter⟩ := Mount.inodeAt_write hinode hwrite
    cases hw
    rw [Mount.inodeAt] at hafter
    change m.dentries f.dentry = some D' at hD'
    rw [hD'] at hafter
    refine ⟨{ c with ext4 := ino }, hafter, ?_, ?_⟩
    · exact (Ext4.Ext4Inode.write_spec hino).2.inodeNum.trans hnum
    · have hsize := hfits f c hf hinode
      exact Ext4.Ext4Inode.shows_of_write_elsewhere hshows hino
        (by rwa [List.length_map, List.length_map]) (by rwa [List.length_map])
  · exact h.of_steps hsteps hd

theorem Shown.step (h : Shown d n pos data s) (hfresh : r.Fresh s)
    (hspare : s.Spares d pos data.length r) (hs : s.step r = some s') :
    Shown d n pos data s' := by
  by_cases hwrite : ∃ fd buf, r = .write fd buf
  · obtain ⟨fd, buf, rfl⟩ := hwrite
    obtain ⟨⟨s₁, resp⟩, hserve, rfl⟩ := Option.map_eq_some_iff.mp hs
    obtain ⟨⟨s₂, r₂⟩, hw, hserve⟩ := Option.bind_eq_some_iff.mp hserve
    rw [fst_of_respond hserve]
    exact h.write hspare hw
  · refine h.of_steps (step_steps hfresh hs) ?_
    unfold Spares at hspare
    split at hspare
    · exact absurd ⟨_, _, rfl⟩ hwrite
    · exact hspare

theorem ofBitVec_toBitVec_map (data : List UInt8) :
    (data.map UInt8.toBitVec).map UInt8.ofBitVec = data := by
  rw [List.map_map]
  exact List.map_id'' (fun _ => rfl) data

/-- Shown bytes are read through every file of the entry. -/
theorem Shown.read (h : Shown d n pos data s) {fd : ℕ} {f : File ℕ} (hf : s.file 0 fd = some f)
    (hd : f.dentry = d) (hpos : f.pos = pos) {D : Dentry} (hD : s.vfs.dentries d = some D) :
    ∃ s', s.read Mount.vfs 0 fd data.length = some (s', .ok data) := by
  obtain ⟨c, hc, -, hshows⟩ := h.shows D hD
  have hinode : s.vfs.inodeAt f.dentry = some c := by
    rw [Mount.inodeAt, hd, hD]
    exact hc
  have hread : c.ext4.read s.vfs.volume.fs pos (data.map UInt8.toBitVec).length = _ :=
    Ext4.Ext4Inode.read_of_shows hshows
  rw [List.length_map] at hread
  have hvfs : Mount.vfs.read s.vfs f.dentry f.pos data.length =
      some (s.vfs.setExt4 f.dentry c.ext4, .ok data) := by
    change Mount.read _ _ _ _ = _
    rw [Mount.read, hinode, hpos]
    dsimp only
    rw [hread, Option.map_some, ofBitVec_toBitVec_map]
  unfold FsServer.read
  rw [hf]
  dsimp only
  rw [hvfs]
  exact ⟨_, rfl⟩

theorem Shown.lasts (h : Shown d n pos data s) : s.Lasts d n pos data := by
  intro rs s' halong hrun hnum fd f hf hfd hpos
  have h' : Shown d n pos data s' :=
    Run.foldlM_invariant_along (fun s r s' hs hC hstep => hs.step hC.1 hC.2 hstep) h halong hrun
  have hfnum : s'.vfs.num f.dentry = some n := by
    rw [inodeNum, hf] at hfd
    exact hfd
  have hd : f.dentry = d := h'.inv.one _ _ n hfnum hnum
  cases hD : s'.vfs.dentries d with
  | none =>
    rw [Mount.num, Mount.inodeAt, hD] at hnum
    cases hnum
  | some D => exact h'.read hf hd hpos hD

/-- A write shows its bytes. -/
theorem shown_of_write (hinv : s.vfs.Inv) {fd k : ℕ} {f : File ℕ} (hf : s.file 0 fd = some f)
    (hn : s.inodeNum fd = some n) (hfits : s.Fits fd data)
    (h : s.write Mount.vfs 0 fd data = some (s', .ok k)) :
    k = data.length ∧ Shown f.dentry n f.pos data s' := by
  have hsteps := write_steps h
  unfold FsServer.write at h
  rw [hf] at h
  obtain ⟨⟨m, r⟩, hwrite, h⟩ := Option.bind_eq_some_iff.mp h
  rw [inodeNum, hf] at hn
  obtain ⟨c, hc, hcn⟩ := Option.map_eq_some_iff.mp hn
  obtain ⟨k', ino, fs, hino, rfl, hafter⟩ := Mount.inodeAt_write hc hwrite
  cases h
  obtain ⟨hk, hwrote⟩ := Ext4.Ext4Inode.write_spec hino
  rw [List.length_map] at hk
  obtain ⟨D₀, hD₀, -⟩ := Option.bind_eq_some_iff.mp hc
  refine ⟨hk, hsteps.inv hinv, (hinv.bounded _ _ hD₀).trans_le hsteps.le, fun D hD => ?_⟩
  change m.dentries f.dentry = some D at hD
  rw [Mount.inodeAt, hD] at hafter
  refine ⟨{ c with ext4 := ino }, hafter, hwrote.inodeNum.trans hcn, hwrote.shows ?_⟩
  rw [List.length_map]
  exact hfits f c hf hc

/-- **One inode in memory for each number is coherence.** -/
theorem coherent_of_inv (hinv : s.vfs.Inv) : Coherent s := by
  have hsame : ∀ {fd gd n : ℕ} {f g : File ℕ}, s.inodeNum fd = some n → s.inodeNum gd = some n →
      s.file 0 fd = some f → s.file 0 gd = some g → f.dentry = g.dentry := by
    intro fd gd n f g hfd hgd hf hg
    rw [inodeNum, hf] at hfd
    rw [inodeNum, hg] at hgd
    exact hinv.one _ _ n hfd hgd
  refine ⟨hinv.one, fun fd gd n hfd hgd => ?_, fun fd gd n f g count hfd hgd hf hg hpos => ?_,
    fun fd f n data s' k hf hn hfits h => ?_⟩
  · obtain ⟨f, hf, -⟩ := Option.bind_eq_some_iff.mp hfd
    obtain ⟨g, hg, -⟩ := Option.bind_eq_some_iff.mp hgd
    unfold fstat
    rw [hf, hg, Option.bind_some, Option.bind_some, hsame hfd hgd hf hg]
  · have hd := hsame hfd hgd hf hg
    unfold FsServer.read
    rw [hf, hg]
    dsimp only
    rw [hd, hpos]
    cases Mount.vfs.read s.vfs g.dentry g.pos count with
    | none => rfl
    | some p =>
      obtain ⟨m, r⟩ := p
      cases r <;> rfl
  · obtain ⟨hk, hshown⟩ := shown_of_write hinv hf hn hfits h
    exact ⟨hk, hshown.lasts⟩

/-! ## Runs -/

/-- A server that starts on a volume. -/
def boot (volume : Ext4.Volume) (attrs : ℕ → Ext4.InodeAttr) (checksumSeed : UInt32) :
    FsServer Mount ℕ := ⟨Mount.new volume attrs checksumSeed, fun _ => none⟩

theorem inv_boot (volume : Ext4.Volume) (attrs : ℕ → Ext4.InodeAttr) (checksumSeed : UInt32) :
    (boot volume attrs checksumSeed).vfs.Inv := by
  have hroot : ∀ d D, (boot volume attrs checksumSeed).vfs.dentries d = some D → d = 0 := by
    intro d D hD
    by_contra hd
    simp [boot, Mount.new, hd] at hD
  refine ⟨fun d D hD => ?_, fun d e n hd he => ?_⟩
  · rw [hroot d D hD]
    exact Nat.one_pos
  · obtain ⟨c, hc, -⟩ := Option.map_eq_some_iff.mp hd
    obtain ⟨c', hc', -⟩ := Option.map_eq_some_iff.mp he
    obtain ⟨D, hD, -⟩ := Option.bind_eq_some_iff.mp hc
    obtain ⟨D', hD', -⟩ := Option.bind_eq_some_iff.mp hc'
    rw [hroot d D hD, hroot e D' hD']

/-- **Every run of fresh requests leads to a coherent state.** -/
theorem coherent_run (volume : Ext4.Volume) (attrs : ℕ → Ext4.InodeAttr) (checksumSeed : UInt32)
    (rs : List Request)
    (hfresh : Run.AlongSome step (fun s r => r.Fresh s) (boot volume attrs checksumSeed) rs)
    (hrun : rs.foldlM step (boot volume attrs checksumSeed) = some s) : Coherent s := by
  apply coherent_of_inv
  exact Run.foldlM_invariant_along (I := fun s : FsServer Mount ℕ => s.vfs.Inv)
    (fun s r s' hs hC hstep => (step_steps hC hstep).inv hs) (inv_boot ..) hfresh hrun

/-! ## A volume with one file -/

section OneFileVolume

open Ext4

/-- The directory `/`: the names `.`, `..` and `f`, for inode 12. -/
def rootContents : List (BitVec 8) :=
  [2, 0, 0, 0, 12, 0, 1, 2, 46, 0, 0, 0,
   2, 0, 0, 0, 12, 0, 2, 2, 46, 46, 0, 0,
   12, 0, 0, 0, 0xE8, 0x0F, 1, 1, 102]

/-- Block 3 is the block bitmap, block 4 the inode bitmap, block 10 the directory `/`. -/
def oneFileFs : Ext4FileSystem where
  blockSize := 4096
  blocksPerGroup := 32768
  blockGroups := [⟨3, 32757⟩]
  freeBlocksCount := 32757
  device := fun a =>
    if a / 4096 = 3 then [0xFF, 0x07].getD (a % 4096) 0
    else if a / 4096 = 4 then [0xFF, 0x0F].getD (a % 4096) 0
    else if a / 4096 = 10 then rootContents.getD (a % 4096) 0
    else 0
  inodeTable := fun n =>
    if n = 2 then
      ⟨4096, 2, true, false, (Ext4Extent.new 0 1 10).write
        ({ Ext4ExtentHeader.newRoot with entries := 1 }.write fun _ => 0) 12⟩
    else ⟨0, 1, false, true, fun _ => 0⟩

def oneFileVolume : Volume where
  fs := oneFileFs
  inodesPerGroup := 16
  inodeGroups := [⟨4, 4, 1, 4⟩]
  freeInodesCount := 4

/-- The server that starts on it. -/
def oneFileBoot : FsServer Mount ℕ :=
  boot oneFileVolume (fun n => ⟨if n = 2 then 0x41ED else 0x81A4, 0⟩) 0

set_option maxRecDepth 20000

/-- A walk to `/f` loads what is under that name, if anything. -/
theorem pathFresh_f {m : Mount}
    (h : ∀ n, (m.clone m.root).loads m.root ['f'] = some n → (m.clone m.root).Absent n) :
    m.PathFresh "/f".toList := by
  have hcomponents : components "/f".toList = [['f']] := by decide
  rw [Mount.PathFresh, hcomponents]
  exact ⟨h, fun _ _ _ _ _ => trivial⟩

theorem absent_boot : (oneFileBoot.vfs.clone 0).Absent 12 := by
  intro d hd
  rw [Mount.num, Mount.inodeAt_clone] at hd
  by_cases h0 : d = 0
  · subst h0
    cases hd
  · simp [oneFileBoot, boot, Mount.new, Mount.inodeAt, h0] at hd

/-- Opening the file loads inode 12; opening it again finds it in memory. -/
theorem loads_openings :
    (oneFileBoot.vfs.clone 0).loads 0 ['f'] = some 12 ∧
      ((oneFileBoot.step (.openFile 0 "/f")).map fun s =>
        (s.vfs.clone s.vfs.root).loads s.vfs.root ['f']) = some none ∧
      ([Request.openFile 0 "/f", .openFile 0 "/f"].foldlM step oneFileBoot).isSome := by
  decide +kernel

theorem coherent_run_openings :
    ∃ s, [Request.openFile 0 "/f", .openFile 0 "/f"].foldlM step oneFileBoot = some s ∧
      Coherent s := by
  obtain ⟨hfirst, hsecond, hsome⟩ := loads_openings
  obtain ⟨s, hs⟩ := Option.isSome_iff_exists.mp hsome
  refine ⟨s, hs, coherent_run oneFileVolume _ 0 [.openFile 0 "/f", .openFile 0 "/f"] ?_ hs⟩
  refine ⟨pathFresh_f fun n hn => ?_, fun s' hs' => ⟨pathFresh_f fun n hn => ?_, fun _ _ => trivial⟩⟩
  · obtain rfl : 12 = n := Option.some.inj (hfirst.symm.trans hn)
    exact absent_boot
  · change oneFileBoot.step (.openFile 0 "/f") = some s' at hs'
    rw [hs', Option.map_some, hn] at hsecond
    cases hsecond

/-- **A path with a dot in it** leads to a second inode in memory for the file: a byte is written
through one descriptor, and the other one still reports an empty file. -/
theorem dot_path_incoherent :
    ∃ s, [Request.openFile 0 "/f", .openFile 0 "/./f", .write 0 [7]].foldlM step oneFileBoot = some s ∧
      s.inodeNum 0 = some 12 ∧ s.inodeNum 1 = some 12 ∧
      s.fstat Mount.vfs 0 0 = .ok 1 ∧ s.fstat Mount.vfs 0 1 = .ok 0 ∧ ¬ Coherent s := by
  have hrun : (([Request.openFile 0 "/f", .openFile 0 "/./f", .write 0 [7]].foldlM step
      oneFileBoot).map fun s => (s.inodeNum 0, s.inodeNum 1, (s.fstat Mount.vfs 0 0).toOption,
        (s.fstat Mount.vfs 0 1).toOption)) = some (some 12, some 12, some 1, some 0) := by
    decide +kernel
  obtain ⟨s, hs, heq⟩ := Option.map_eq_some_iff.mp hrun
  obtain ⟨h0, h1, hsize0, hsize1⟩ : s.inodeNum 0 = some 12 ∧ s.inodeNum 1 = some 12 ∧
      (s.fstat Mount.vfs 0 0).toOption = some 1 ∧ (s.fstat Mount.vfs 0 1).toOption = some 0 := by
    simpa only [Prod.mk.injEq] using heq
  have hok : ∀ {r : Except Errno (BitVec 64)} {k : BitVec 64}, r.toOption = some k → r = .ok k := by
    intro r k h
    cases r with
    | error e => cases h
    | ok k' => exact congrArg _ (Option.some.inj h)
  refine ⟨s, hs, h0, h1, hok hsize0, hok hsize1, fun hcoherent => ?_⟩
  have hsame := hcoherent.size 0 1 12 h0 h1
  rw [hok hsize0, hok hsize1] at hsame
  cases hsame

end OneFileVolume

end FsServer

end QuackOS.Fs
