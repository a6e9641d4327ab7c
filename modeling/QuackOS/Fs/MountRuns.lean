import QuackOS.Fs.Mount

/-!
# How the operations on paths go

Each operation on a path is a walk, a change and the dropping of two references, and may stop at
each of them.  For each one, the ways it can go, with the states in between.

* `Opening`, `Creating`, `Unlinking`, `Renaming`, `LinkReading` — the ways, one constructor each;
* `openPath_goes`, `create_goes`, `unlink_goes`, `rename_goes`, `readlink_goes` — **an operation
  that returns went one of them.**
-/

namespace QuackOS.Fs

open Ext4 (Name Ext4Inode Ext4DirEntry)

namespace Mount

/-! ## The ways -/

/-- How `open` goes before a descriptor is taken. -/
inductive Opening (m : Mount) (path : Name) (flags : UInt8) : Mount → Except Errno ℕ → Prop
  | noWalk {m₁ : Mount} {e : Errno} (walk : m.pathWalk path = some (m₁, .error e)) :
      Opening m path flags m₁ (.error e)
  | negative {m₁ m₂ m₃ : Mount} {d parent : ℕ}
      (walk : m.pathWalk path = some (m₁, .ok (d, parent))) (rel : m₁.release parent = some m₂)
      (rel' : m₂.release d = some m₃) : Opening m path flags m₃ (.error .ENOENT)
  | opened {m₁ m₂ : Mount} {d parent : ℕ} (walk : m.pathWalk path = some (m₁, .ok (d, parent)))
      (rel : m₁.release parent = some m₂)
      (positive : ¬ (m₂.isNegative d = true ∧ flags &&& oCreat ≠ oCreat)) :
      Opening m path flags m₂ (.ok d)

/-- How `create` goes. -/
inductive Creating (m : Mount) (path : Name) (mode : UInt16) : Mount → Except Errno Unit → Prop
  | noWalk {m₁ : Mount} {e : Errno} (walk : m.pathWalk path = some (m₁, .error e)) :
      Creating m path mode m₁ (.error e)
  | refused {m₁ m' : Mount} {d parent : ℕ} {e : Errno} {r : Except Errno Unit}
      (walk : m.pathWalk path = some (m₁, .ok (d, parent)))
      (drop : m₁.finish parent d (.error e) = some (m', r)) : Creating m path mode m' r
  | created {m₁ m₂ m' : Mount} {d parent : ℕ} {c : CachedInode} {r : Except Errno Unit}
      (walk : m.pathWalk path = some (m₁, .ok (d, parent))) (inode : m₁.inodeAt parent = some c)
      (make : m₁.createIn parent c d mode = some m₂)
      (drop : m₂.finish parent d (.ok ()) = some (m', r)) : Creating m path mode m' r

/-- How `unlink` goes. -/
inductive Unlinking (m : Mount) (path : Name) : Mount → Except Errno Unit → Prop
  | noWalk {m₁ : Mount} {e : Errno} (walk : m.pathWalk path = some (m₁, .error e)) :
      Unlinking m path m₁ (.error e)
  | refused {m₁ m' : Mount} {d parent : ℕ} {e : Errno} {r : Except Errno Unit}
      (walk : m.pathWalk path = some (m₁, .ok (d, parent)))
      (drop : m₁.finish parent d (.error e) = some (m', r)) : Unlinking m path m' r
  | ran {m₁ m₂ m' : Mount} {d parent : ℕ} {c : CachedInode} {r₂ r : Except Errno Unit}
      (walk : m.pathWalk path = some (m₁, .ok (d, parent))) (positive : m₁.isNegative d = false)
      (inode : m₁.inodeAt parent = some c) (unlink : m₁.unlinkIn parent c d = some (m₂, r₂))
      (drop : m₂.finish d parent r₂ = some (m', r)) : Unlinking m path m' r

/-- How the part of `rename` after both walks goes. -/
inductive RenamingIn (m : Mount) (src srcParent dst dstParent : ℕ) :
    Mount → Except Errno Unit → Prop
  | noParent (inode : m.inodeAt dstParent = none) :
      RenamingIn m src srcParent dst dstParent m (.error .ENOENT)
  | kept {m₁ : Mount} {e : Errno} (unlink : m.unlinkOld src srcParent = some (m₁, .error e)) :
      RenamingIn m src srcParent dst dstParent m₁ (.error e)
  | made {m₁ m₂ : Mount} {c : CachedInode} (inode : m.inodeAt dstParent ≠ none)
      (unlink : m.unlinkOld src srcParent = some (m₁, .ok ()))
      (inode' : m₁.inodeAt dstParent = some c) (make : m₁.createIn dstParent c dst 0o644 = some m₂) :
      RenamingIn m src srcParent dst dstParent m₂ (.ok ())

/-- How `rename` goes. -/
inductive Renaming (m : Mount) (oldPath newPath : Name) : Mount → Except Errno Unit → Prop
  | noSource {m₁ : Mount} {e : Errno} (walk : m.pathWalk oldPath = some (m₁, .error e)) :
      Renaming m oldPath newPath m₁ (.error e)
  | negative {m₁ m' : Mount} {src srcParent : ℕ} {r : Except Errno Unit}
      (walk : m.pathWalk oldPath = some (m₁, .ok (src, srcParent)))
      (negative : m₁.isNegative src = true)
      (drop : m₁.finish srcParent src (.error .ENOENT) = some (m', r)) :
      Renaming m oldPath newPath m' r
  | noTarget {m₁ m₂ m' : Mount} {src srcParent : ℕ} {e : Errno} {r : Except Errno Unit}
      (walk : m.pathWalk oldPath = some (m₁, .ok (src, srcParent)))
      (walk' : m₁.pathWalk newPath = some (m₂, .error e))
      (drop : m₂.finish srcParent src (.error e) = some (m', r)) : Renaming m oldPath newPath m' r
  | ran {m₁ m₂ m₃ m₄ m' : Mount} {src srcParent dst dstParent : ℕ} {r₃ r₄ r : Except Errno Unit}
      (walk : m.pathWalk oldPath = some (m₁, .ok (src, srcParent)))
      (positive : m₁.isNegative src = false)
      (walk' : m₁.pathWalk newPath = some (m₂, .ok (dst, dstParent)))
      (run : RenamingIn m₂ src srcParent dst dstParent m₃ r₃)
      (drop : m₃.finish dstParent dst r₃ = some (m₄, r₄))
      (drop' : m₄.finish srcParent src r₄ = some (m', r)) : Renaming m oldPath newPath m' r

/-- How `readlink` goes. -/
inductive LinkReading (m : Mount) (path : Name) : Mount → Except Errno Name → Prop
  | noName : LinkReading m path m (.error .EINVAL)
  | noWalk {m₁ : Mount} {dir name : Name} {e : Errno} (split : splitLast path = some (dir, name))
      (walk : m.pathWalk (if dir = [] then ['/'] else dir) = some (m₁, .error e)) :
      LinkReading m path m₁ (.error e)
  | noTarget {m₁ m₂ m₃ m₄ : Mount} {dir name : Name} {parent other : ℕ} {e : Errno}
      (split : splitLast path = some (dir, name))
      (walk : m.pathWalk (if dir = [] then ['/'] else dir) = some (m₁, .ok (parent, other)))
      (rel : m₁.release other = some m₂) (step : m₂.walkStep parent name = some (m₃, .error e))
      (rel' : m₃.release parent = some m₄) : LinkReading m path m₄ (.error e)
  | ran {m₁ m₂ m₃ m₄ m' : Mount} {dir name : Name} {parent other target : ℕ}
      {r₄ r : Except Errno Name} (split : splitLast path = some (dir, name))
      (walk : m.pathWalk (if dir = [] then ['/'] else dir) = some (m₁, .ok (parent, other)))
      (rel : m₁.release other = some m₂) (step : m₂.walkStep parent name = some (m₃, .ok target))
      (link : m₃.readLink target = some (m₄, r₄)) (drop : m₄.finish target parent r₄ = some (m', r)) :
      LinkReading m path m' r

/-! ## Every operation goes one of them -/

section Cases

variable {m m' : Mount} {path oldPath newPath : Name} {flags : UInt8} {mode : UInt16}
  {src srcParent dst dstParent : ℕ}

theorem openPath_goes {r : Except Errno ℕ} (h : m.openPath path flags = some (m', r)) :
    Opening m path flags m' r := by
  obtain ⟨⟨m₁, r₁⟩, hwalk, h⟩ := Option.bind_eq_some_iff.mp h
  cases r₁ with
  | error e =>
    cases h
    exact .noWalk hwalk
  | ok p =>
    obtain ⟨d, parent⟩ := p
    obtain ⟨m₂, hrel, h⟩ := Option.bind_eq_some_iff.mp h
    split at h
    · obtain ⟨m₃, hrel', h⟩ := Option.bind_eq_some_iff.mp h
      cases h
      exact .negative hwalk hrel hrel'
    · rename_i hpositive
      cases h
      exact .opened hwalk hrel hpositive

/-- What `createIn` makes of the entry of the new file. -/
def madeEntry (n : ℕ) (mode : UInt16) (D : Dentry) : Dentry :=
  { D with
    inode := some ⟨Ext4Inode.create n, ⟨mode &&& 0xFFF ||| 0x8000, 0⟩, none⟩
    flags := D.flags.updateTypeFromNegative .regular }

/-- `createIn` takes a number, writes to the directory and then to the entry, whose old inode, if it
has one, leaves memory. -/
theorem createIn_goes {parent d : ℕ} {c : CachedInode} (h : m.createIn parent c d mode = some m') :
    ∃ n v volume attrs fs ino fs', m.volume.allocInode false = some (n, v) ∧
      c.ext4.addEntry fs m.checksumSeed c.attr.generation (m.getLastName d) (UInt32.ofNat n)
        Ext4DirEntry.dtReg = some (ino, fs') ∧
      (m' = ({ m with volume := volume, attrs := attrs }.setExt4 parent ino).modify d
          (madeEntry n mode) ∨
        ∃ old, (({ m with volume := volume, attrs := attrs }.setExt4 parent ino).modify d
          (madeEntry n mode)).dropInode old = some m') := by
  obtain ⟨⟨n, v⟩, halloc, h⟩ := Option.bind_eq_some_iff.mp h
  dsimp only at h
  split at h
  · obtain ⟨⟨ino, fs'⟩, hadd, h⟩ := Option.bind_eq_some_iff.mp h
    split at h
    · cases h
      exact ⟨n, v, _, _, _, ino, fs', halloc, hadd, Or.inl rfl⟩
    · exact ⟨n, v, _, _, _, ino, fs', halloc, hadd, Or.inr ⟨_, h⟩⟩
  · cases h

/-- Opening a path is a walk to it. -/
theorem walk_of_openPath {path : Name} {flags : UInt8} {d : ℕ}
    (h : m.openPath path flags = some (m', .ok d)) :
    ∃ m₁ parent, m.pathWalk path = some (m₁, .ok (d, parent)) ∧ m₁.release parent = some m' := by
  cases openPath_goes h with
  | opened walk rel => exact ⟨_, _, walk, rel⟩

theorem create_goes {r : Except Errno Unit} (h : m.create path mode = some (m', r)) :
    Creating m path mode m' r := by
  obtain ⟨⟨m₁, r₁⟩, hwalk, h⟩ := Option.bind_eq_some_iff.mp h
  cases r₁ with
  | error e =>
    cases h
    exact .noWalk hwalk
  | ok p =>
    obtain ⟨d, parent⟩ := p
    dsimp only at h
    split at h
    · split at h
      · exact .refused hwalk h
      · rename_i c hc
        obtain ⟨m₂, hmake, h⟩ := Option.bind_eq_some_iff.mp h
        exact .created hwalk hc hmake h
    · exact .refused hwalk h

/-- `unlinkIn` writes to the directory, if the entry has an inode. -/
theorem unlinkIn_goes {parent d : ℕ} {c : CachedInode} {r : Except Errno Unit}
    (h : m.unlinkIn parent c d = some (m', r)) :
    m' = m ∨ ∃ found ino fs, c.ext4.deleteEntry m.volume.fs m.checksumSeed c.attr.generation
      (m.getLastName d) = some (found, ino, fs) ∧ m' = (m.setFs fs).setExt4 parent ino := by
  unfold unlinkIn at h
  split at h
  · cases h
    exact Or.inl rfl
  · obtain ⟨⟨found, ino, fs⟩, hdel, h⟩ := Option.bind_eq_some_iff.mp h
    cases h
    exact Or.inr ⟨found, ino, fs, hdel, rfl⟩

theorem unlinkOld_goes {r : Except Errno Unit} (h : m.unlinkOld src srcParent = some (m', r)) :
    m' = m ∨ ∃ c, m.inodeAt srcParent = some c ∧ m.unlinkIn srcParent c src = some (m', r) := by
  unfold unlinkOld at h
  split at h
  · cases h
    exact Or.inl rfl
  · rename_i c hc
    exact Or.inr ⟨c, hc, h⟩

theorem unlink_goes {r : Except Errno Unit} (h : m.unlink path = some (m', r)) :
    Unlinking m path m' r := by
  obtain ⟨⟨m₁, r₁⟩, hwalk, h⟩ := Option.bind_eq_some_iff.mp h
  cases r₁ with
  | error e =>
    cases h
    exact .noWalk hwalk
  | ok p =>
    obtain ⟨d, parent⟩ := p
    dsimp only at h
    split at h
    · exact .refused hwalk h
    · rename_i hpositive
      split at h
      · exact .refused hwalk h
      · rename_i c hc
        obtain ⟨⟨m₂, r₂⟩, hunlink, h⟩ := Option.bind_eq_some_iff.mp h
        exact .ran hwalk (Bool.eq_false_iff.mpr hpositive) hc hunlink h

theorem renameIn_goes {r : Except Errno Unit}
    (h : m.renameIn src srcParent dst dstParent = some (m', r)) :
    RenamingIn m src srcParent dst dstParent m' r := by
  unfold renameIn at h
  split at h
  · rename_i hnone
    cases h
    exact .noParent hnone
  · rename_i c₀ hsome
    obtain ⟨⟨m₁, r₁⟩, hunlink, h⟩ := Option.bind_eq_some_iff.mp h
    cases r₁ with
    | error e =>
      cases h
      exact .kept hunlink
    | ok _ =>
      dsimp only at h
      split at h
      · cases h
      · rename_i c hc
        obtain ⟨m₂, hmake, h⟩ := Option.bind_eq_some_iff.mp h
        cases h
        refine .made ?_ hunlink hc hmake
        rw [hsome]
        exact Option.some_ne_none c₀

theorem rename_goes {r : Except Errno Unit} (h : m.rename oldPath newPath = some (m', r)) :
    Renaming m oldPath newPath m' r := by
  obtain ⟨⟨m₁, r₁⟩, hwalk, h⟩ := Option.bind_eq_some_iff.mp h
  cases r₁ with
  | error e =>
    cases h
    exact .noSource hwalk
  | ok source =>
    obtain ⟨src, srcParent⟩ := source
    dsimp only at h
    split at h
    · rename_i hnegative
      exact .negative hwalk hnegative h
    · rename_i hpositive
      obtain ⟨⟨m₂, r₂⟩, hwalk', h⟩ := Option.bind_eq_some_iff.mp h
      cases r₂ with
      | error e => exact .noTarget hwalk hwalk' h
      | ok target =>
        obtain ⟨dst, dstParent⟩ := target
        obtain ⟨⟨m₃, r₃⟩, hrename, h⟩ := Option.bind_eq_some_iff.mp h
        obtain ⟨⟨m₄, r₄⟩, hdrop, h⟩ := Option.bind_eq_some_iff.mp h
        exact .ran hwalk (Bool.eq_false_iff.mpr hpositive) hwalk' (renameIn_goes hrename) hdrop h

/-- What `readLink` keeps beside an inode. -/
def keepLink (bs : List (BitVec 8)) (D : Dentry) : Dentry :=
  { D with inode := D.inode.map fun c => { c with link := some (Ext4Inode.linkTarget bs) } }

/-- `readLink` reads the inode, if the target is not known. -/
theorem readLink_goes {d : ℕ} {r : Except Errno Name} (h : m.readLink d = some (m', r)) :
    m' = m ∨ ∃ c bs ino, m.inodeAt d = some c ∧ c.ext4.linkBytes m.volume.fs = some (bs, ino) ∧
      m' = (m.setExt4 d ino).modify d (keepLink bs) := by
  unfold readLink at h
  split at h
  · cases h
    exact Or.inl rfl
  · rename_i c hc
    split at h
    · split at h
      · cases h
        exact Or.inl rfl
      · obtain ⟨⟨bs, ino⟩, hbytes, h⟩ := Option.bind_eq_some_iff.mp h
        cases h
        exact Or.inr ⟨c, bs, ino, hc, hbytes, rfl⟩
    · cases h
      exact Or.inl rfl

theorem readlink_goes {r : Except Errno Name} (h : m.readlink path = some (m', r)) :
    LinkReading m path m' r := by
  unfold readlink at h
  split at h
  · cases h
    exact .noName
  · rename_i dir name hsplit
    obtain ⟨⟨m₁, r₁⟩, hwalk, h⟩ := Option.bind_eq_some_iff.mp h
    cases r₁ with
    | error e =>
      cases h
      exact .noWalk hsplit hwalk
    | ok p =>
      obtain ⟨parent, other⟩ := p
      obtain ⟨m₂, hrel, h⟩ := Option.bind_eq_some_iff.mp h
      obtain ⟨⟨m₃, r₃⟩, hstep, h⟩ := Option.bind_eq_some_iff.mp h
      cases r₃ with
      | error e =>
        obtain ⟨m₄, hrel', h⟩ := Option.bind_eq_some_iff.mp h
        cases h
        exact .noTarget hsplit hwalk hrel hstep hrel'
      | ok target =>
        obtain ⟨⟨m₄, r₄⟩, hlink, h⟩ := Option.bind_eq_some_iff.mp h
        exact .ran hsplit hwalk hrel hstep hlink h

end Cases

end Mount

end QuackOS.Fs
