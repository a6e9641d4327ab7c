import Mathlib.Data.List.Pairwise
import QuackOS.Lib.Run
import QuackOS.Ext4.Owns

/-!
# Block ownership

Several files on one file system: the operations on each of them, in any order, and what they
do to the blocks of the others.

* `World`, `FileOp`, `World.step` — the files in memory and the calls on them;
* `World.Consistent` — every file owns its blocks alone;
* `World.BlocksOwned` — mapped blocks are marked used and mapped once;
* `blocksOwned_run` — every run of safe calls from a consistent image keeps this.

A hole punched over a mapped block frees the block and leaves it mapped (`punched_unowned`).
-/

namespace QuackOS.Ext4

open Buffer Ext4ExtentBlock

/-! ## Files and calls -/

/-- `Ext4Inode::sub_nlinks`. -/
def Ext4Inode.subNlinks (ino : Ext4Inode) : Ext4Inode :=
  { ino with inodeOnDisk := { ino.inodeOnDisk with linksCount := ino.inodeOnDisk.linksCount - 1 } }

/-- The file system and the inodes in memory. -/
structure World where
  fs : Ext4FileSystem
  files : ℕ → Option Ext4Inode

/-- The calls on a file.  Dropping an inode that still has links is followed by the load of the
next use. -/
inductive FileOp
  | write (file offset : ℕ) (buf : List (BitVec 8))
  | truncate (file size : ℕ)
  | fallocate (file : ℕ) (mode : FallocFlags) (offset len : ℕ)
  | subNlinks (file : ℕ)
  | drop (file : ℕ)
deriving DecidableEq

namespace World

/-- The world after a call on file `i` that left it as `ino`. -/
def put (w : World) (i : ℕ) (ino : Option Ext4Inode) (fs : Ext4FileSystem) : World :=
  ⟨fs, Function.update w.files i ino⟩

/-- One call; a call on no file does nothing. -/
def call (w : World) : FileOp → Option World
  | .write i offset buf =>
    match w.files i with
    | none => some w
    | some ino => (ino.write w.fs offset buf).map fun (_, ino', fs') => w.put i (some ino') fs'
  | .truncate i size =>
    match w.files i with
    | none => some w
    | some ino => (ino.truncate w.fs size).map fun (_, ino', fs') => w.put i (some ino') fs'
  | .fallocate i mode offset len =>
    match w.files i with
    | none => some w
    | some ino =>
      (ino.fallocate w.fs mode offset len).map fun (_, ino', fs') => w.put i (some ino') fs'
  | .subNlinks i =>
    match w.files i with
    | none => some w
    | some ino => some (w.put i (some ino.subNlinks) w.fs)
  | .drop i =>
    match w.files i with
    | none => some w
    | some ino => (ino.drop w.fs).map fun fs' =>
      w.put i (if ino.inodeOnDisk.linksCount = 0 then none
        else some (Ext4Inode.loadInode fs' ino.inodeNum)) fs'

/-- A step of a run, which a call that does not come back ends. -/
def step (w : Option World) (op : FileOp) : Option World := w.bind fun w => w.call op

/-- The state after a run of calls. -/
def run (w : World) (ops : List FileOp) : Option World := Run.exec step (some w) ops

/-! ## Consistency -/

/-- The blocks file `i` has to leave alone: the bitmaps and the blocks of the other files. -/
def rest (w : World) (i : ℕ) : Set ℕ :=
  {x | x ∈ w.fs.bitmaps ∨
    ∃ j ino, j ≠ i ∧ w.files j = some ino ∧ x ∈ ino.inodeOnDisk.owned w.fs}

/-- **A consistent image.**  The blocks of a file, those its extents map and those its extent
tree is kept in, are marked used, are no bitmaps, and are part of nothing else. -/
structure Consistent (w : World) : Prop where
  sound : w.fs.Sound
  ordered : ∀ i ino, w.files i = some ino → ino.inodeOnDisk.Ordered w.fs
  used : ∀ i ino, w.files i = some ino → ∀ x ∈ ino.inodeOnDisk.owned w.fs, w.fs.used x = true
  bitmaps : ∀ i ino, w.files i = some ino → ∀ x ∈ ino.inodeOnDisk.owned w.fs, x ∉ w.fs.bitmaps
  once : ∀ i ino, w.files i = some ino → (ino.inodeOnDisk.owned w.fs).Nodup
  alone : ∀ i j ino ino', i ≠ j → w.files i = some ino → w.files j = some ino' →
    ∀ x ∈ ino.inodeOnDisk.owned w.fs, x ∉ ino'.inodeOnDisk.owned w.fs

/-- An extent of file `i` maps logical block `l` to block `x`. -/
def Maps (w : World) (i l x : ℕ) : Prop :=
  ∃ ino, w.files i = some ino ∧ ∃ e ∈ ino.inodeOnDisk.liveExtents w.fs, ∃ k < e.len.toNat,
    l = e.logicalBlock.toNat + k ∧ x = e.physicalStartBlock + k

/-- **Block ownership.**  A mapped block is marked used, and no block is mapped by two files
or at two places of one. -/
structure BlocksOwned (w : World) : Prop where
  used : ∀ i l x, w.Maps i l x → w.fs.used x = true
  single : ∀ i j l m x, w.Maps i l x → w.Maps j m x → i = j ∧ l = m

variable {w w' : World} {i : ℕ} {ino ino' : Ext4Inode} {fs' : Ext4FileSystem}

theorem Consistent.owns (h : w.Consistent) (hi : w.files i = some ino) :
    Owns (w.rest i) w.fs ino.inodeOnDisk where
  sound := h.sound
  bitmaps := fun _ hx => Or.inl hx
  rest := by
    rintro x (hx | ⟨j, inoj, -, hj, hx⟩)
    · exact h.sound.bitmaps_used x hx
    · exact h.used j inoj hj x hx
  ordered := h.ordered i ino hi
  nodup := h.once i ino hi
  apart := by
    rintro x hx (hb | ⟨j, inoj, hne, hj, hxj⟩)
    · exact h.bitmaps i ino hi x hx hb
    · exact h.alone j i inoj ino hne hj hi x hxj hx
  used := h.used i ino hi

/-- Two entries of a list whose blocks are all distinct share none. -/
theorem eq_of_nodup_flatMap {α β : Type*} {f : α → List β} {es : List α}
    (h : (es.flatMap f).Nodup) {a b : α} (ha : a ∈ es) (hb : b ∈ es) {x : β} (hxa : x ∈ f a)
    (hxb : x ∈ f b) : a = b := by
  rw [List.nodup_flatMap] at h
  have hsymm : Std.Symm (Function.onFun List.Disjoint f) := ⟨fun _ _ hd => hd.symm⟩
  by_contra hne
  exact h.2.forall ha hb hne hxa hxb

/-- **Consistency implies ownership.** -/
theorem Consistent.blocksOwned (h : w.Consistent) : w.BlocksOwned := by
  have hmem : ∀ {e : Ext4Extent} {k : ℕ}, k < e.len.toNat → e.physicalStartBlock + k ∈ e.blocks := by
    intro e k hk
    rw [Ext4Extent.blocks, List.mem_range'_1]
    omega
  refine ⟨?_, ?_⟩
  · rintro i l x ⟨ino, hi, e, he, k, hk, -, rfl⟩
    exact h.used i ino hi _
      (Ext4InodeDisk.mem_owned_of_mapped (Ext4InodeDisk.mem_mapped he (hmem hk)))
  · rintro i j l m x ⟨ino, hi, e, he, k, hk, rfl, rfl⟩ ⟨ino', hj, e', he', k', hk', rfl, hx⟩
    have hxe' : e.physicalStartBlock + k ∈ e'.blocks := by
      rw [hx]
      exact hmem hk'
    have hij : i = j := by
      by_contra hne
      exact h.alone i j ino ino' hne hi hj _
        (Ext4InodeDisk.mem_owned_of_mapped (Ext4InodeDisk.mem_mapped he (hmem hk)))
        (Ext4InodeDisk.mem_owned_of_mapped (Ext4InodeDisk.mem_mapped he' hxe'))
    subst hij
    have heq : ino' = ino := Option.some.inj (hj.symm.trans hi)
    subst heq
    have hee : e = e' := eq_of_nodup_flatMap (List.nodup_append'.mp (h.once i ino' hi)).1 he he'
      (hmem hk) hxe'
    subst hee
    omega

/-! ## One call -/

/-- The blocks of the other files are what they were. -/
theorem Consistent.owned_other (h : w.Consistent) (hs : fs'.Sound)
    (hk : Keeps (w.rest i) w.fs fs') {j : ℕ} {inoj : Ext4Inode} (hj : w.files j = some inoj)
    (hne : j ≠ i) : inoj.inodeOnDisk.owned fs' = inoj.inodeOnDisk.owned w.fs ∧
      inoj.inodeOnDisk.liveExtents fs' = inoj.inodeOnDisk.liveExtents w.fs := by
  have hsize : fs'.blockSize = w.fs.blockSize := hs.blockSize.trans h.sound.blockSize.symm
  have hnodes : ∀ x ∈ inoj.inodeOnDisk.nodes w.fs, fs'.block x = w.fs.block x := by
    intro x hx
    have hown : x ∈ inoj.inodeOnDisk.owned w.fs := Owns.mem_nodes hx
    exact hk.block x (Or.inr ⟨j, inoj, hne, hj, hown⟩) (h.bitmaps j inoj hj x hown)
  exact ⟨Ext4InodeDisk.owned_congr hsize hnodes, (Ext4InodeDisk.tree_congr hsize hnodes).1⟩

/-- **The frame rule.**  A call on file `i` that keeps to its own blocks keeps the image
consistent. -/
theorem Consistent.put (h : w.Consistent) {r : Option Ext4Inode} (hs : fs'.Sound)
    (hk : Keeps (w.rest i) w.fs fs') (hrest : ∀ x ∈ w.rest i, fs'.used x = true)
    (hr : ∀ ino', r = some ino' → Owns (w.rest i) fs' ino'.inodeOnDisk) :
    (w.put i r fs').Consistent := by
  have hself : ∀ {j inoj}, (w.put i r fs').files j = some inoj → j = i →
      Owns (w.rest i) fs' inoj.inodeOnDisk := by
    rintro j inoj hj rfl
    exact hr inoj (by simpa [World.put] using hj)
  have hother : ∀ {j inoj}, (w.put i r fs').files j = some inoj → j ≠ i →
      w.files j = some inoj := by
    intro j inoj hj hne
    simpa [World.put, Function.update_of_ne hne] using hj
  have hin : ∀ {j inoj}, w.files j = some inoj → j ≠ i →
      ∀ x ∈ inoj.inodeOnDisk.owned fs', x ∈ w.rest i := by
    intro j inoj hj hne x hx
    rw [(h.owned_other hs hk hj hne).1] at hx
    exact Or.inr ⟨j, inoj, hne, hj, hx⟩
  refine ⟨hs, ?_, ?_, ?_, ?_, ?_⟩
  · intro j inoj hj
    by_cases hji : j = i
    · exact (hself hj hji).ordered
    · have hj' := hother hj hji
      have hord := h.ordered j inoj hj'
      refine ⟨hord.flags, hord.inlineSize, hord.root, ?_⟩
      show ∀ e ∈ inoj.inodeOnDisk.liveExtents fs', e.len ≠ 0
      rw [(h.owned_other hs hk hj' hji).2]
      exact hord.len
  · intro j inoj hj x hx
    by_cases hji : j = i
    · exact (hself hj hji).used x hx
    · exact hrest x (hin (hother hj hji) hji x hx)
  · intro j inoj hj x hx hb
    by_cases hji : j = i
    · exact (hself hj hji).not_bitmap hx hb
    · have hj' := hother hj hji
      have hx' : x ∈ inoj.inodeOnDisk.owned fs' := hx
      rw [(h.owned_other hs hk hj' hji).1] at hx'
      have hb' : x ∈ fs'.bitmaps := hb
      rw [hk.bitmaps] at hb'
      exact h.bitmaps j inoj hj' x hx' hb'
  · intro j inoj hj
    by_cases hji : j = i
    · exact (hself hj hji).nodup
    · have hj' := hother hj hji
      show (inoj.inodeOnDisk.owned fs').Nodup
      rw [(h.owned_other hs hk hj' hji).1]
      exact h.once j inoj hj'
  · intro j k inoj inok hjk hj hk' x hx hxk
    by_cases hji : j = i
    · have hki : k ≠ i := fun hki => hjk (hji.trans hki.symm)
      exact (hself hj hji).apart x hx (hin (hother hk' hki) hki x hxk)
    · have hj' := hother hj hji
      by_cases hki : k = i
      · exact (hself hk' hki).apart x hxk (hin hj' hji x hx)
      · have hk'' := hother hk' hki
        have hx' : x ∈ inoj.inodeOnDisk.owned fs' := hx
        have hxk' : x ∈ inok.inodeOnDisk.owned fs' := hxk
        rw [(h.owned_other hs hk hj' hji).1] at hx'
        rw [(h.owned_other hs hk hk'' hki).1] at hxk'
        exact h.alone j k inoj inok hjk hj' hk'' x hx' hxk'

theorem Consistent.put_step (h : w.Consistent)
    (hstep : Owns.Step (w.rest i) w.fs fs' ino'.inodeOnDisk) :
    (w.put i (some ino') fs').Consistent := by
  refine h.put hstep.owns.sound hstep.keeps hstep.owns.rest ?_
  rintro _ ⟨⟩
  exact hstep.owns

/-- The calls that free no block that stays mapped: a shrink that meets whole extents of a leaf
root only, and a hole where nothing is mapped. -/
def Safe (w : World) : FileOp → Prop
  | .truncate i size => ∀ ino, w.files i = some ino → TruncateSafe w.fs ino size
  | .fallocate i mode offset len =>
    ∀ ino, w.files i = some ino → PunchSafe w.fs ino mode offset len
  | .write .. | .subNlinks _ | .drop _ => True

/-- **A safe call keeps the image consistent.** -/
theorem Consistent.call (h : w.Consistent) {op : FileOp} (hsafe : w.Safe op)
    (hc : w.call op = some w') : w'.Consistent := by
  cases op with
  | write i offset buf =>
    simp only [World.call] at hc
    split at hc
    · cases hc
      exact h
    · rename_i ino hi
      obtain ⟨⟨n, ino', fs'⟩, hw, rfl⟩ := Option.map_eq_some_iff.mp hc
      exact h.put_step ((h.owns hi).write hw)
  | truncate i size =>
    simp only [World.call] at hc
    split at hc
    · cases hc
      exact h
    · rename_i ino hi
      obtain ⟨⟨r, ino', fs'⟩, ht, rfl⟩ := Option.map_eq_some_iff.mp hc
      exact h.put_step ((h.owns hi).truncate (hsafe ino hi) ht)
  | fallocate i mode offset len =>
    simp only [World.call] at hc
    split at hc
    · cases hc
      exact h
    · rename_i ino hi
      obtain ⟨⟨r, ino', fs'⟩, hf, rfl⟩ := Option.map_eq_some_iff.mp hc
      exact h.put_step ((h.owns hi).fallocate (hsafe ino hi) hf)
  | subNlinks i =>
    simp only [World.call] at hc
    split at hc
    · cases hc
      exact h
    · rename_i ino hi
      cases hc
      have hown := h.owns hi
      exact h.put_step ⟨⟨hown.sound, hown.bitmaps, hown.rest,
        ⟨hown.ordered.flags, hown.ordered.inlineSize, hown.ordered.root, hown.ordered.len⟩,
        hown.nodup, hown.apart, hown.used⟩, Keeps.refl _ _⟩
  | drop i =>
    simp only [World.call] at hc
    split at hc
    · cases hc
      exact h
    · rename_i ino hi
      obtain ⟨fs', hd, rfl⟩ := Option.map_eq_some_iff.mp hc
      split
      · rename_i hlinks
        obtain ⟨hs, hk, hrest⟩ := (h.owns hi).drop_unlinked hlinks hd
        exact h.put hs hk hrest (by rintro _ ⟨⟩)
      · rename_i hlinks
        exact h.put_step ((h.owns hi).drop hlinks hd)

/-! ## Runs -/

/-- Every call of the run is safe in the state it is made in. -/
def SafeRun (w : World) (ops : List FileOp) : Prop :=
  Run.Along step (fun w op => ∀ v, w = some v → v.Safe op) (some w) ops

end World

open World

/-- **Block ownership.**  From a consistent image, in every run of safe calls and in every state
it passes through, the blocks that live extents map are marked used, and no block is mapped by
two files or at two places of one. -/
theorem blocksOwned_run (w : World) (h : w.Consistent) (ops : List FileOp)
    (hsafe : w.SafeRun ops) (pre : List FileOp) (hpre : pre <+: ops) (w' : World)
    (hrun : w.run pre = some w') : w'.BlocksOwned := by
  have hinv : ∀ v, Run.exec World.step (some w) pre = some v → v.Consistent := by
    refine Run.exec_invariant_prefix (I := fun s => ∀ v, s = some v → v.Consistent)
      ?_ ?_ hsafe hpre
    · intro s op hs hop v hv
      obtain ⟨u, rfl, hcall⟩ := Option.bind_eq_some_iff.mp hv
      exact (hs u rfl).call (hop u rfl) hcall
    · rintro v ⟨⟩
      exact h
  exact (hinv w' hrun).blocksOwned

/-! ### Images of one group -/

/-- One group: its bitmap is in block 1, and blocks 0, 1 and 2 are used. -/
def oneGroup : Ext4FileSystem where
  blockSize := 4096
  blocksPerGroup := 32768
  blockGroups := [⟨1, 32765⟩]
  freeBlocksCount := 32765
  device := fun i => if i = 4096 then 7 else 0
  inodeTable := fun _ => (Ext4Inode.create 0).inodeOnDisk

theorem oneGroup_sound : oneGroup.Sound := by
  refine ⟨rfl, by decide, by decide, by decide, by decide, ?_⟩
  intro x hx
  rw [show x = 1 by simpa [Ext4FileSystem.bitmaps, oneGroup] using hx]
  rfl

/-- A new file on the image. -/
def freshWorld : World where
  fs := oneGroup
  files := fun i => if i = 0 then some (Ext4Inode.create 0) else none

theorem freshWorld_consistent : freshWorld.Consistent := by
  have hfile : ∀ i ino, freshWorld.files i = some ino → ino = Ext4Inode.create 0 := by
    intro i ino hi
    simp only [freshWorld] at hi
    split at hi
    · exact (Option.some.inj hi).symm
    · cases hi
  have hlive : (Ext4Inode.create 0).inodeOnDisk.liveExtents freshWorld.fs = [] := rfl
  have howned : (Ext4Inode.create 0).inodeOnDisk.owned freshWorld.fs = [] := rfl
  refine ⟨oneGroup_sound, ?_, ?_, ?_, ?_, ?_⟩
  · intro i ino hi
    rw [hfile i ino hi]
    refine ⟨?_, ?_, ?_, ?_⟩
    · decide
    · decide
    · exact fun h => absurd h (by decide)
    · rw [hlive]
      simp
  · intro i ino hi x hx
    rw [hfile i ino hi, howned] at hx
    cases hx
  · intro i ino hi x hx
    rw [hfile i ino hi, howned] at hx
    cases hx
  · intro i ino hi
    rw [hfile i ino hi, howned]
    exact List.nodup_nil
  · intro i j ino ino' hne hi hj x hx
    rw [hfile i ino hi, howned] at hx
    cases hx

/-- A file that is written, preallocated, cut and removed. -/
def lifeOfFile : List FileOp :=
  [.write 0 0 (List.replicate 100 1), .truncate 0 0, .fallocate 0 .keepSize 0 8192,
    .subNlinks 0, .drop 0]

theorem blocksOwned_run_lifeOfFile :
    freshWorld.SafeRun lifeOfFile ∧ ∃ w', freshWorld.run lifeOfFile = some w' ∧ w'.BlocksOwned := by
  have hsafe : freshWorld.SafeRun lifeOfFile := by
    refine ⟨fun _ _ => trivial, ?_, ?_, fun _ _ => trivial, fun _ _ => trivial, trivial⟩
    · intro v hv ino hino _ _ ino₁ fs₁ hclear l e _ hlt _
      have hall : (World.step (some freshWorld) (.write 0 0 (List.replicate 100 1))).all
          (fun v => (v.files 0).all fun ino => (ino.clearLastPage v.fs 0).all fun r =>
            decide ((extentHeader r.1.inodeOnDisk.block).depth = 0 ∧
              UInt32.ofNat (Ext4Inode.blockCount 0 v.fs.blockSize) = 0 ∧
              UInt32.ofNat (Ext4Inode.blockCount ino.getSize v.fs.blockSize) = 1)) = true := by
        decide +kernel
      have hino₁ := (Option.all_eq_true _ _).mp ((Option.all_eq_true _ _).mp
        ((Option.all_eq_true _ _).mp hall v hv) ino hino) (ino₁, fs₁) hclear
      obtain ⟨hdepth, hnew, hcurrent⟩ := of_decide_eq_true hino₁
      rw [hcurrent, UInt32.lt_iff_toNat_lt] at hlt
      have hlen := e.len.toNat_lt
      rw [hnew]
      refine ⟨hdepth, UInt32.le_iff_toNat_le.mpr (Nat.zero_le _), ?_⟩
      simp only [UInt32.toNat_one] at hlt
      omega
    · intro v _ ino _ hmode
      exact absurd hmode (by decide)
  have hsome : (freshWorld.run lifeOfFile).isSome = true := by decide +kernel
  obtain ⟨w', hw'⟩ := Option.isSome_iff_exists.mp hsome
  exact ⟨hsafe, w', hw', blocksOwned_run freshWorld freshWorld_consistent lifeOfFile hsafe
    lifeOfFile List.prefix_rfl w' hw'⟩

/-! ### A hole over a mapped block -/

/-- A file of one block, which its extent maps to block 2. -/
def oneBlockFile : Ext4Inode where
  inodeNum := 0
  inodeOnDisk := ⟨4096, 1, true, false, (Ext4Extent.new 0 1 2).write
    ({ Ext4ExtentHeader.newRoot with entries := 1 }.write fun _ => 0) 12⟩
  pages := ∅
  seals := 0

def oneBlockWorld : World where
  fs := oneGroup
  files := fun i => if i = 0 then some oneBlockFile else none

theorem oneBlockWorld_consistent : oneBlockWorld.Consistent := by
  have hfile : ∀ i ino, oneBlockWorld.files i = some ino → i = 0 ∧ ino = oneBlockFile := by
    intro i ino hi
    simp only [oneBlockWorld] at hi
    split at hi
    · exact ⟨by assumption, (Option.some.inj hi).symm⟩
    · cases hi
  have hdepth : (extentHeader oneBlockFile.inodeOnDisk.block).depth = 0 := by decide +kernel
  have hlive : oneBlockFile.inodeOnDisk.liveExtents oneBlockWorld.fs = [Ext4Extent.new 0 1 2] := by
    rw [Ext4InodeDisk.liveExtents_leaf rfl hdepth]
    decide +kernel
  have howned : oneBlockFile.inodeOnDisk.owned oneBlockWorld.fs = [2] := by
    rw [Ext4InodeDisk.owned_leaf rfl hdepth]
    decide +kernel
  refine ⟨oneGroup_sound, ?_, ?_, ?_, ?_, ?_⟩
  · intro i ino hi
    rw [(hfile i ino hi).2]
    refine ⟨?_, ?_, ?_, ?_⟩
    · exact fun _ => rfl
    · exact fun h => absurd h (by decide)
    · exact fun _ _ => by decide +kernel
    · rw [hlive]
      decide
  · intro i ino hi x hx
    rw [(hfile i ino hi).2, howned, List.mem_singleton] at hx
    rw [hx]
    decide +kernel
  · intro i ino hi x hx
    rw [(hfile i ino hi).2, howned, List.mem_singleton] at hx
    rw [hx]
    decide
  · intro i ino hi
    rw [(hfile i ino hi).2, howned]
    exact List.nodup_singleton 2
  · intro i j ino ino' hne hi hj
    exact absurd ((hfile i ino hi).1.trans (hfile j ino' hj).1.symm) hne

/-- **Punching a hole frees a block that stays mapped.** -/
theorem punched_unowned : oneBlockWorld.Consistent ∧
    ∃ w', oneBlockWorld.run [.fallocate 0 ⟨3⟩ 0 4096] = some w' ∧ ¬ w'.BlocksOwned := by
  refine ⟨oneBlockWorld_consistent, ?_⟩
  have hfacts : (oneBlockWorld.run [.fallocate 0 ⟨3⟩ 0 4096]).map (fun w =>
      (w.fs.used 2, (w.files 0).map fun ino => (ino.inodeOnDisk.hasInlineData,
        (extentHeader ino.inodeOnDisk.block).depth, extents ino.inodeOnDisk.block))) =
      some (false, some (false, 0, [Ext4Extent.new 0 1 2])) := by
    decide +kernel
  obtain ⟨w', hrun, hw'⟩ := Option.map_eq_some_iff.mp hfacts
  obtain ⟨hused, hfile⟩ := Prod.mk.injEq .. ▸ hw'
  obtain ⟨ino, hino, hdata⟩ := Option.map_eq_some_iff.mp hfile
  simp only [Prod.mk.injEq] at hdata
  obtain ⟨hinline, hdepth, hext⟩ := hdata
  refine ⟨w', hrun, fun h => ?_⟩
  have hmaps : w'.Maps 0 0 2 := by
    refine ⟨ino, hino, Ext4Extent.new 0 1 2, ?_, 0, by decide, by decide, by decide⟩
    rw [Ext4InodeDisk.liveExtents_leaf hinline hdepth, hext]
    exact List.mem_singleton_self _
  rw [h.used 0 0 2 hmaps] at hused
  cases hused

end QuackOS.Ext4
