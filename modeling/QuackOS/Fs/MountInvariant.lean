import QuackOS.Ext4.Pages
import QuackOS.Fs.MountRuns

/-!
# One inode in memory for each number

Nothing in the directory cache looks for an inode by its number: a lookup that misses loads the
inode its directory entry names, whether that inode is in memory already or not.

* `Mount.Inv` — no two entries in memory hold inodes of one number;
* `Mount.Steps` — an operation keeps this, and the inodes of the entries it does not write to;
* `Mount.PathFresh`, `CreateFresh`, `RenameFresh`, `LinkFresh` — the operations on paths that
  load and take only numbers that are not in memory;
* `openPath_steps` to `getdents_steps` — each operation, where it is fresh, is such a step.
-/

namespace QuackOS.Fs

open Ext4 (Name Ext4Inode Ext4FileSystem Volume)

namespace Mount

variable {m m' m'' : Mount} {W W' : Set ℕ} {d e n : ℕ} {name : Name}

/-- The number of the inode an entry holds. -/
def num (m : Mount) (d : ℕ) : Option ℕ := (m.inodeAt d).map fun c => c.ext4.inodeNum

/-- No inode in memory has this number. -/
def Absent (m : Mount) (n : ℕ) : Prop := ∀ d, m.num d ≠ some n

/-- **One inode in memory for each number.** -/
structure Inv (m : Mount) : Prop where
  bounded : ∀ d D, m.dentries d = some D → d < m.nextDentry
  one : ∀ d e n, m.num d = some n → m.num e = some n → d = e

/-- From `m` to `m'` the invariant is kept, and the entries that were there and are not in `W`
keep their inodes for as long as they are in memory. -/
structure Steps (W : Set ℕ) (m m' : Mount) : Prop where
  inv : m.Inv → m'.Inv
  le : m.nextDentry ≤ m'.nextDentry
  old : ∀ d < m.nextDentry, ∀ D', m'.dentries d = some D' → ∃ D, m.dentries d = some D ∧
    (d ∉ W → ∀ c, D.inode = some c → ∃ c', D'.inode = some c' ∧ c.ext4.Kept c'.ext4)

/-! ## Single changes -/

theorem Steps.trans (h : Steps W m m') (h' : Steps W m' m'') : Steps W m m'' where
  inv := fun hi => h'.inv (h.inv hi)
  le := h.le.trans h'.le
  old := fun d hd D'' hD'' => by
    obtain ⟨D', hD', hk'⟩ := h'.old d (hd.trans_le h.le) D'' hD''
    obtain ⟨D, hD, hk⟩ := h.old d hd D' hD'
    refine ⟨D, hD, fun hW c hc => ?_⟩
    obtain ⟨c', hc', hkept⟩ := hk hW c hc
    obtain ⟨c'', hc'', hkept'⟩ := hk' hW c' hc'
    exact ⟨c'', hc'', hkept.trans hkept'⟩

theorem Steps.mono (h : Steps W m m') (hW : W ⊆ W') : Steps W' m m' where
  inv := h.inv
  le := h.le
  old := fun d hd D' hD' => by
    obtain ⟨D, hD, hk⟩ := h.old d hd D' hD'
    exact ⟨D, hD, fun hd' => hk fun hdW => hd' (hW hdW)⟩

/-- The entries are the same. -/
theorem steps_of_dentries (hd : m'.dentries = m.dentries) (hn : m'.nextDentry = m.nextDentry) :
    Steps W m m' where
  inv := fun hi => by
    have hnum : m'.num = m.num := by
      funext e
      simp only [num, inodeAt, hd]
    refine ⟨fun d D hD => ?_, fun d e n h1 h2 => ?_⟩
    · rw [hn]
      exact hi.bounded d D (by rw [← hd]; exact hD)
    · rw [hnum] at h1 h2
      exact hi.one d e n h1 h2
  le := hn.ge
  old := fun d _ D' hD' => by
    rw [hd] at hD'
    exact ⟨D', hD', fun _ c hc => ⟨c, hc, .refl _⟩⟩

theorem Steps.refl (m : Mount) : Steps W m m := steps_of_dentries rfl rfl

/-- Numbers stay apart when one entry is given its old number or one that is not in memory. -/
theorem one_of_update (hone : ∀ d e n, m.num d = some n → m.num e = some n → d = e)
    (hrest : ∀ e ≠ d, m'.num e = m.num e)
    (hnum : ∀ n, m'.num d = some n → m.num d = some n ∨ m.Absent n) (a b : ℕ)
    (ha : m'.num a = some n) (hb : m'.num b = some n) : a = b := by
  have hdiff : ∀ e, e ≠ d → m'.num d = some n → m'.num e = some n → e = d := by
    intro e he h1 h2
    rw [hrest e he] at h2
    rcases hnum n h1 with h | h
    · exact hone e d n h2 h
    · exact absurd h2 (h e)
  by_cases had : a = d
  · by_cases hbd : b = d
    · rw [had, hbd]
    · rw [had] at ha
      rw [had, hdiff b hbd ha hb]
  · by_cases hbd : b = d
    · rw [hbd] at hb
      rw [hbd, hdiff a had hb ha]
    · rw [hrest a had] at ha
      rw [hrest b hbd] at hb
      exact hone a b n ha hb

/-- One entry is changed or goes. -/
theorem steps_of_update (hd : ∀ e ≠ d, m'.dentries e = m.dentries e)
    (hn : m'.nextDentry = m.nextDentry)
    (hnum : ∀ n, m'.num d = some n → m.num d = some n ∨ m.Absent n)
    (hold : ∀ D', m'.dentries d = some D' → ∃ D, m.dentries d = some D ∧
      (d ∉ W → ∀ c, D.inode = some c → ∃ c', D'.inode = some c' ∧ c.ext4.Kept c'.ext4)) :
    Steps W m m' where
  inv := fun hi => by
    have hrest : ∀ e ≠ d, m'.num e = m.num e := by
      intro e he
      simp only [num, inodeAt, hd e he]
    refine ⟨fun e D hD => ?_, fun a b n => one_of_update hi.one hrest hnum a b⟩
    rw [hn]
    by_cases he : e = d
    · subst he
      obtain ⟨D₀, hD₀, -⟩ := hold D hD
      exact hi.bounded e D₀ hD₀
    · rw [hd e he] at hD
      exact hi.bounded e D hD
  le := hn.ge
  old := fun e _ D' hD' => by
    by_cases he : e = d
    · subst he
      exact hold D' hD'
    · rw [hd e he] at hD'
      exact ⟨D', hD', fun _ c hc => ⟨c, hc, .refl _⟩⟩

/-- A new entry, with no inode or with one whose number is not in memory. -/
theorem steps_of_new (hd : ∀ e ≠ m.nextDentry, m'.dentries e = m.dentries e)
    (hn : m'.nextDentry = m.nextDentry + 1)
    (hnum : ∀ n, m'.num m.nextDentry = some n → m.Absent n) : Steps W m m' where
  inv := fun hi => by
    have hrest : ∀ e ≠ m.nextDentry, m'.num e = m.num e := by
      intro e he
      simp only [num, inodeAt, hd e he]
    refine ⟨fun e D hD => ?_,
      fun a b n => one_of_update hi.one hrest (fun n h => Or.inr (hnum n h)) a b⟩
    rw [hn]
    by_cases he : e = m.nextDentry
    · omega
    · rw [hd e he] at hD
      have := hi.bounded e D hD
      omega
  le := by omega
  old := fun e he D' hD' => by
    rw [hd e (by omega)] at hD'
    exact ⟨D', hD', fun _ c hc => ⟨c, hc, .refl _⟩⟩

/-! ## Changes that leave the inodes alone -/

theorem dentries_modify (m : Mount) (d : ℕ) (f : Dentry → Dentry) (e : ℕ) :
    (m.modify d f).dentries e = if e = d then (m.dentries d).map f else m.dentries e := by
  unfold modify
  by_cases he : e = d
  · subst he
    simp
  · simp [he]

/-- A change that does not touch the inode keeps all numbers. -/
theorem inodeAt_modify {f : Dentry → Dentry} (hf : ∀ D, (f D).inode = D.inode) (e : ℕ) :
    (m.modify d f).inodeAt e = m.inodeAt e := by
  unfold inodeAt
  rw [dentries_modify]
  split
  · rename_i he
    subst he
    cases m.dentries e with
    | none => rfl
    | some D => exact hf D
  · rfl

theorem modify_steps {f : Dentry → Dentry} (hf : ∀ D, (f D).inode = D.inode) :
    Steps W m (m.modify d f) := by
  refine steps_of_update (d := d) (fun e he => ?_) rfl (fun n hn => Or.inl ?_) (fun D' hD' => ?_)
  · rw [dentries_modify, if_neg he]
  · rw [num, inodeAt_modify hf] at hn
    exact hn
  · rw [dentries_modify, if_pos rfl] at hD'
    obtain ⟨D, hD, rfl⟩ := Option.map_eq_some_iff.mp hD'
    exact ⟨D, hD, fun _ c hc => ⟨c, (hf D).trans hc, .refl _⟩⟩

theorem clone_steps (m : Mount) (d : ℕ) : Steps W m (m.clone d) := modify_steps fun _ => rfl

theorem inodeAt_clone (m : Mount) (d e : ℕ) : (m.clone d).inodeAt e = m.inodeAt e := by
  apply inodeAt_modify
  intro D
  rfl

theorem insertChild_steps (m : Mount) (d : ℕ) (name : Name) (e : ℕ) :
    Steps W m (m.insertChild d name e) := modify_steps fun _ => rfl

theorem setFs_steps (m : Mount) (fs : Ext4FileSystem) : Steps W m (m.setFs fs) :=
  steps_of_dentries rfl rfl

theorem inodeAt_setExt4 (m : Mount) (d : ℕ) (ino : Ext4Inode) (e : ℕ) :
    (m.setExt4 d ino).inodeAt e =
      if e = d then (m.inodeAt d).map fun c => { c with ext4 := ino } else m.inodeAt e := by
  unfold setExt4 inodeAt
  rw [dentries_modify]
  split
  · cases m.dentries d with
    | none => rfl
    | some D => rfl
  · rfl

/-- The numbers stay when an inode is replaced by one of its number. -/
theorem num_setExt4 {c : CachedInode} {ino : Ext4Inode} (hc : m.inodeAt d = some c)
    (hnum : ino.inodeNum = c.ext4.inodeNum) : (m.setExt4 d ino).num = m.num := by
  funext e
  unfold num
  rw [inodeAt_setExt4]
  split
  · rename_i he
    subst he
    simp [hc, hnum]
  · rfl

/-- The inode of an entry is changed by a call. -/
theorem setExt4_steps {c : CachedInode} {ino : Ext4Inode} (hc : m.inodeAt d = some c)
    (hnum : ino.inodeNum = c.ext4.inodeNum) (hkept : d ∉ W → c.ext4.Kept ino) :
    Steps W m (m.setExt4 d ino) := by
  refine steps_of_update (d := d) (fun e he => ?_) rfl (fun n hn => Or.inl ?_) (fun D' hD' => ?_)
  · rw [setExt4, dentries_modify, if_neg he]
  · rw [num_setExt4 hc hnum] at hn
    exact hn
  · rw [setExt4, dentries_modify, if_pos rfl] at hD'
    obtain ⟨D, hD, rfl⟩ := Option.map_eq_some_iff.mp hD'
    refine ⟨D, hD, fun hW c' hc' => ?_⟩
    rw [inodeAt, hD, Option.bind_some, hc'] at hc
    cases hc
    exact ⟨{ c with ext4 := ino }, by simp [hc'], hkept hW⟩

/-! ## References -/

theorem dropInode_steps {c : CachedInode} (h : m.dropInode c = some m') : Steps W m m' := by
  obtain ⟨fs, -, rfl⟩ := Option.map_eq_some_iff.mp h
  exact steps_of_dentries rfl rfl

/-- An entry goes. -/
theorem remove_steps (m : Mount) (d : ℕ) :
    Steps W m { m with dentries := Function.update m.dentries d none } := by
  refine steps_of_update (d := d) (fun e he => ?_) rfl (fun n hn => ?_) (fun D' hD' => ?_)
  · exact Function.update_of_ne he ..
  · simp [num, inodeAt] at hn
  · simp at hD'

theorem releaseLoop_steps {fuel : ℕ} (h : releaseLoop fuel m d = some m') : Steps W m m' := by
  induction fuel generalizing m m' d with
  | zero =>
    cases h
    exact .refl _
  | succ fuel ih =>
    unfold releaseLoop at h
    split at h
    · cases h
      exact .refl _
    · rename_i D hD
      split at h
      · cases h
        exact modify_steps fun _ => rfl
      · obtain ⟨m₂, hparent, h⟩ := Option.bind_eq_some_iff.mp h
        have hm₂ : Steps W m m₂ := by
          cases hp : D.parent with
          | none =>
            rw [hp] at hparent
            cases hparent
            exact remove_steps m d
          | some p =>
            rw [hp] at hparent
            exact (remove_steps m d).trans (ih hparent)
        cases hc : D.inode with
        | none =>
          rw [hc] at h
          cases h
          exact hm₂
        | some c =>
          rw [hc] at h
          exact hm₂.trans (dropInode_steps h)

theorem release_steps (h : m.release d = some m') : Steps W m m' := releaseLoop_steps h

theorem finish_steps {α : Type} {r r' : Except Errno α}
    (h : m.finish d e r = some (m', r')) : Steps W m m' := by
  obtain ⟨m₁, h₁, h⟩ := Option.bind_eq_some_iff.mp h
  obtain ⟨m₂, h₂, h⟩ := Option.bind_eq_some_iff.mp h
  cases h
  exact (release_steps h₁).trans (release_steps h₂)

/-! ## Lookup -/

theorem lookupChild_steps {r : Option ℕ} (h : m.lookupChild d name = (m', r)) : Steps W m m' := by
  unfold lookupChild at h
  split at h
  · cases h
    exact .refl _
  · split at h
    · cases h
      exact clone_steps ..
    · cases h
      exact modify_steps fun _ => rfl

theorem inodeAt_lookupChild {r : Option ℕ} (h : m.lookupChild d name = (m', r)) (e : ℕ) :
    m'.inodeAt e = m.inodeAt e := by
  unfold lookupChild at h
  split at h
  · cases h
    rfl
  · split at h
    · cases h
      exact inodeAt_clone ..
    · cases h
      apply inodeAt_modify
      intro D
      rfl

/-- A child that is not in memory is not found by a second try either, which changes nothing. -/
theorem lookupChild_miss (h : m.lookupChild d name = (m', none)) :
    m'.lookupChild d name = (m', none) := by
  unfold lookupChild at h
  split at h
  · rename_i hnone
    cases h
    unfold lookupChild
    rw [hnone]
  · split at h
    · cases h
    · cases h
      unfold lookupChild
      rw [dentries_modify, if_pos rfl]
      cases m.dentries d with
      | none => rfl
      | some D => simp

/-- The number of the inode a round of `path_walk` loads. -/
def loads (m : Mount) (current : ℕ) (name : Name) : Option ℕ :=
  match m.lookupChild current name with
  | (_, some _) => none
  | (m₁, none) => do
    let c ← m₁.inodeAt current
    let (entry, _) ← c.ext4.lookup m₁.volume.fs name
    let e ← entry
    return e.inodeNum.toNat

/-- What the round loads is not in memory. -/
def LoadFresh (m : Mount) (current : ℕ) (name : Name) : Prop :=
  ∀ n, m.loads current name = some n → m.Absent n

theorem newDentry_steps {flags : DentryFlags} {inode : Option CachedInode}
    (hfresh : ∀ c, inode = some c → m.Absent c.ext4.inodeNum) :
    Steps W m (m.newDentry d name flags inode).1 := by
  refine (clone_steps m d).trans (steps_of_new (fun e he => ?_) rfl fun n hn => ?_)
  · exact Function.update_of_ne he ..
  · have hnum : (inode.map fun c => c.ext4.inodeNum) = some n := by
      simpa [num, inodeAt, newDentry, clone, modify] using hn
    obtain ⟨c, hc, rfl⟩ := Option.map_eq_some_iff.mp hnum
    intro e he
    refine hfresh c hc e ?_
    rw [← he, num, num, inodeAt_clone]

theorem inodeNum_loadInode {c : CachedInode} (h : m.loadInode n = some c) :
    c.ext4.inodeNum = n := by
  unfold loadInode at h
  split at h
  · cases h
    rfl
  · cases h

theorem walkStep_steps {r : Except Errno ℕ} (hfresh : m.LoadFresh d name)
    (h : m.walkStep d name = some (m', r)) : Steps W m m' := by
  unfold walkStep at h
  split at h
  · rename_i m₁ child hchild
    cases h
    exact lookupChild_steps hchild
  · rename_i m₁ hmiss
    have h₁ : Steps W m m₁ := lookupChild_steps hmiss
    split at h
    · cases h
      exact h₁
    · rename_i c hc
      obtain ⟨⟨m₂, child⟩, hlookup, heq⟩ := Option.map_eq_some_iff.mp h
      cases heq
      refine (h₁.trans ?_).trans (insertChild_steps ..)
      unfold lookup at hlookup
      rw [lookupChild_miss hmiss] at hlookup
      obtain ⟨⟨entry, ino⟩, hfind, hlookup⟩ := Option.bind_eq_some_iff.mp hlookup
      obtain ⟨⟨m₃, d'⟩, hnew, hlookup⟩ := Option.bind_eq_some_iff.mp hlookup
      cases hlookup
      refine Steps.trans ?_ (insertChild_steps ..)
      have hkept := Ext4Inode.lookup_kept hfind
      refine (setExt4_steps hc hkept.inodeNum fun _ => hkept).trans ?_
      cases entry with
      | none =>
        cases hnew
        exact newDentry_steps fun c hc => nomatch hc
      | some e =>
        obtain ⟨c', hload, heq⟩ := Option.map_eq_some_iff.mp hnew
        obtain ⟨rfl, rfl⟩ := Prod.mk.inj heq
        refine newDentry_steps fun c'' hc'' => ?_
        cases hc''
        -- the number was not in memory before the directory was read, and reading adds none
        have hloads : m.loads d name = some e.inodeNum.toNat := by
          unfold loads
          rw [hmiss]
          simp [hc, hfind]
        intro a ha
        rw [num_setExt4 hc hkept.inodeNum, inodeNum_loadInode hload] at ha
        refine hfresh _ hloads a ?_
        rw [← ha, num, num, inodeAt_lookupChild hmiss]

/-- What each round of `path_walk` loads is not in memory. -/
def WalkFresh : List Name → Mount → ℕ → Prop
  | [], _, _ => True
  | name :: names, m, current => m.LoadFresh current name ∧
    ∀ m₁ next m₂, m.walkStep current name = some (m₁, .ok next) → m₁.release current = some m₂ →
      WalkFresh names m₂ next

theorem walkLoop_steps {names : List Name} {r : Except Errno (ℕ × ℕ)}
    (hfresh : WalkFresh names m d) (h : walkLoop names m d = some (m', r)) : Steps W m m' := by
  induction names generalizing m d with
  | nil =>
    cases h
    exact clone_steps ..
  | cons name names ih =>
    obtain ⟨hload, hrest⟩ := hfresh
    unfold walkLoop at h
    obtain ⟨⟨m₁, r₁⟩, hstep, h⟩ := Option.bind_eq_some_iff.mp h
    have h₁ : Steps W m m₁ := walkStep_steps hload hstep
    cases r₁ with
    | error e =>
      obtain ⟨m₂, hrel, h⟩ := Option.bind_eq_some_iff.mp h
      cases h
      exact h₁.trans (release_steps hrel)
    | ok next =>
      dsimp only at h
      split at h
      · cases h
        exact h₁
      · obtain ⟨m₂, hrel, h⟩ := Option.bind_eq_some_iff.mp h
        exact (h₁.trans (release_steps hrel)).trans (ih (hrest m₁ next m₂ hstep hrel) h)

/-- What a walk along a path loads is not in memory. -/
def PathFresh (m : Mount) (path : Name) : Prop :=
  WalkFresh (components path) (m.clone m.root) m.root

theorem pathWalk_steps {path : Name} {r : Except Errno (ℕ × ℕ)} (hfresh : m.PathFresh path)
    (h : m.pathWalk path = some (m', r)) : Steps W m m' :=
  (clone_steps ..).trans (walkLoop_steps hfresh h)

/-! ## Operations on paths -/

theorem openPath_steps {path : Name} {flags : UInt8} {r : Except Errno ℕ}
    (hfresh : m.PathFresh path) (h : m.openPath path flags = some (m', r)) : Steps W m m' := by
  cases openPath_goes h with
  | noWalk walk => exact pathWalk_steps hfresh walk
  | negative walk rel rel' =>
    exact ((pathWalk_steps hfresh walk).trans (release_steps rel)).trans (release_steps rel')
  | opened walk rel => exact (pathWalk_steps hfresh walk).trans (release_steps rel)

/-- The number `create` takes is not in memory. -/
def TakesFresh (m : Mount) : Prop :=
  ∀ n v, m.volume.allocInode false = some (n, v) → m.Absent n

theorem createIn_steps {parent : ℕ} {c : CachedInode} {mode : UInt16}
    (hc : m.inodeAt parent = some c) (hfresh : m.TakesFresh)
    (h : m.createIn parent c d mode = some m') : Steps {parent, d} m m' := by
  obtain ⟨n, v, volume, attrs, fs, ino, fs', halloc, hadd, hmade⟩ := createIn_goes h
  obtain ⟨m₁, hm₁⟩ : ∃ m₁, m₁ = { m with volume := volume, attrs := attrs } := ⟨_, rfl⟩
  rw [← hm₁] at hmade
  have hd₁ : m₁.dentries = m.dentries := by rw [hm₁]
  have h₁ : Steps {parent, d} m m₁ := steps_of_dentries hd₁ (by rw [hm₁])
  have hc₁ : m₁.inodeAt parent = some c := by
    rw [inodeAt, hd₁]
    exact hc
  have hnum := Ext4Inode.addEntry_inodeNum hadd
  have h₂ := h₁.trans (setExt4_steps hc₁ hnum fun hW => absurd (by simp) hW)
  generalize hm₂ : m₁.setExt4 parent ino = m₂ at hmade h₂
  -- the entry gets an inode with the new number
  have h₃ : Steps {parent, d} m₂ (m₂.modify d (madeEntry n mode)) := by
    refine steps_of_update (d := d) (fun e he => ?_) rfl (fun k hk => Or.inr ?_) (fun D' hD' => ?_)
    · rw [dentries_modify, if_neg he]
    · have hkn : k = n := by
        rw [num, inodeAt, dentries_modify, if_pos rfl] at hk
        cases hD : m₂.dentries d with
        | none =>
          rw [hD] at hk
          cases hk
        | some D =>
          rw [hD] at hk
          exact (Option.some.inj hk).symm
      rw [hkn]
      intro e he
      refine hfresh n v halloc e ?_
      rw [← he, ← hm₂, num_setExt4 hc₁ hnum, num, num, inodeAt, inodeAt, hd₁]
    · rw [dentries_modify, if_pos rfl] at hD'
      obtain ⟨D, hD, -⟩ := Option.map_eq_some_iff.mp hD'
      exact ⟨D, hD, fun hW => absurd (by simp) hW⟩
  rcases hmade with rfl | ⟨old, hdrop⟩
  · exact h₂.trans h₃
  · exact (h₂.trans h₃).trans (dropInode_steps hdrop)

theorem unlinkIn_steps {parent : ℕ} {c : CachedInode} {r : Except Errno Unit}
    (hc : m.inodeAt parent = some c) (h : m.unlinkIn parent c d = some (m', r)) :
    Steps {parent} m m' := by
  obtain rfl | ⟨found, ino, fs, hdel, rfl⟩ := unlinkIn_goes h
  · exact .refl _
  · refine (setFs_steps m fs).trans ?_
    exact setExt4_steps hc (Ext4Inode.deleteEntry_inodeNum hdel) fun hW => absurd (by simp) hW

/-- What `create` loads and the number it takes are not in memory. -/
def CreateFresh (m : Mount) (path : Name) : Prop :=
  m.PathFresh path ∧
    ∀ m₁ d parent, m.pathWalk path = some (m₁, .ok (d, parent)) → m₁.TakesFresh

/-- The entries `create` writes to: the directory and the new file. -/
def createWrites (m : Mount) (path : Name) : Set ℕ :=
  {e | ∃ m₁ d parent, m.pathWalk path = some (m₁, .ok (d, parent)) ∧ (e = parent ∨ e = d)}

theorem create_steps {path : Name} {mode : UInt16} {r : Except Errno Unit}
    (hfresh : m.CreateFresh path) (h : m.create path mode = some (m', r)) :
    Steps (m.createWrites path) m m' := by
  cases create_goes h with
  | noWalk walk => exact pathWalk_steps hfresh.1 walk
  | refused walk drop => exact (pathWalk_steps hfresh.1 walk).trans (finish_steps drop)
  | @created m₁ m₂ _ d parent c _ walk inode make drop =>
    have hmade : Steps (m.createWrites path) m₁ m₂ := by
      refine (createIn_steps inode (hfresh.2 m₁ d parent walk) make).mono ?_
      intro e he
      exact ⟨m₁, d, parent, walk, he⟩
    exact ((pathWalk_steps hfresh.1 walk).trans hmade).trans (finish_steps drop)

/-- The entry `unlink` writes to: the directory. -/
def unlinkWrites (m : Mount) (path : Name) : Set ℕ :=
  {e | ∃ m₁ d, m.pathWalk path = some (m₁, .ok (d, e))}

theorem unlink_steps {path : Name} {r : Except Errno Unit} (hfresh : m.PathFresh path)
    (h : m.unlink path = some (m', r)) : Steps (m.unlinkWrites path) m m' := by
  cases unlink_goes h with
  | noWalk walk => exact pathWalk_steps hfresh walk
  | refused walk drop => exact (pathWalk_steps hfresh walk).trans (finish_steps drop)
  | @ran m₁ m₂ _ d parent c r₂ _ walk _ inode unlink drop =>
    have hunlinked : Steps (m.unlinkWrites path) m₁ m₂ := by
      refine (unlinkIn_steps inode unlink).mono ?_
      rintro e rfl
      exact ⟨m₁, d, walk⟩
    exact ((pathWalk_steps hfresh walk).trans hunlinked).trans (finish_steps drop)

/-- What `rename` loads and the number it takes are not in memory. -/
def RenameFresh (m : Mount) (oldPath newPath : Name) : Prop :=
  m.PathFresh oldPath ∧
    ∀ m₁ src srcParent, m.pathWalk oldPath = some (m₁, .ok (src, srcParent)) →
      m₁.PathFresh newPath ∧
        ∀ m₂ dst dstParent m₃, m₁.pathWalk newPath = some (m₂, .ok (dst, dstParent)) →
          m₂.unlinkOld src srcParent = some (m₃, .ok ()) → m₃.TakesFresh

/-- The entries `rename` writes to: both directories and what the new name stood for. -/
def renameWrites (m : Mount) (oldPath newPath : Name) : Set ℕ :=
  {e | ∃ m₁ src srcParent m₂ dst dstParent, m.pathWalk oldPath = some (m₁, .ok (src, srcParent)) ∧
    m₁.pathWalk newPath = some (m₂, .ok (dst, dstParent)) ∧
      (e = srcParent ∨ e = dstParent ∨ e = dst)}

theorem unlinkOld_steps {src srcParent : ℕ} {r : Except Errno Unit}
    (h : m.unlinkOld src srcParent = some (m', r)) : Steps {srcParent} m m' := by
  obtain rfl | ⟨c, hc, hunlink⟩ := unlinkOld_goes h
  · exact .refl _
  · exact unlinkIn_steps hc hunlink

theorem renameIn_steps {src srcParent dst dstParent : ℕ} {r : Except Errno Unit}
    (hfresh : ∀ m₁, m.unlinkOld src srcParent = some (m₁, .ok ()) → m₁.TakesFresh)
    (h : RenamingIn m src srcParent dst dstParent m' r) :
    Steps {srcParent, dstParent, dst} m m' := by
  cases h with
  | noParent => exact .refl _
  | kept unlink => exact (unlinkOld_steps unlink).mono (by simp)
  | @made m₁ _ c _ unlink inode' make =>
    exact ((unlinkOld_steps unlink).mono (by simp)).trans
      ((createIn_steps inode' (hfresh m₁ unlink) make).mono (by simp))

theorem rename_steps {oldPath newPath : Name} {r : Except Errno Unit}
    (hfresh : m.RenameFresh oldPath newPath) (h : m.rename oldPath newPath = some (m', r)) :
    Steps (m.renameWrites oldPath newPath) m m' := by
  cases rename_goes h with
  | noSource walk => exact pathWalk_steps hfresh.1 walk
  | negative walk _ drop => exact (pathWalk_steps hfresh.1 walk).trans (finish_steps drop)
  | noTarget walk walk' drop =>
    exact ((pathWalk_steps hfresh.1 walk).trans
      (pathWalk_steps (hfresh.2 _ _ _ walk).1 walk')).trans (finish_steps drop)
  | @ran m₁ m₂ m₃ _ _ src srcParent dst dstParent _ _ _ walk _ walk' run drop drop' =>
    obtain ⟨hfresh₁, hfresh₂⟩ := hfresh.2 m₁ src srcParent walk
    have hwalks : Steps (m.renameWrites oldPath newPath) m m₂ :=
      (pathWalk_steps hfresh.1 walk).trans (pathWalk_steps hfresh₁ walk')
    have hran : Steps (m.renameWrites oldPath newPath) m₂ m₃ := by
      refine (renameIn_steps (fun m₃ => hfresh₂ m₂ dst dstParent m₃ walk') run).mono ?_
      intro e he
      exact ⟨m₁, src, srcParent, m₂, dst, dstParent, walk, walk', he⟩
    exact ((hwalks.trans hran).trans (finish_steps drop)).trans (finish_steps drop')

/-- What `readlink` loads is not in memory. -/
def LinkFresh (m : Mount) (path : Name) : Prop :=
  ∀ dir name, splitLast path = some (dir, name) →
    let dir' := if dir = [] then ['/'] else dir
    m.PathFresh dir' ∧ ∀ m₁ parent other m₂, m.pathWalk dir' = some (m₁, .ok (parent, other)) →
      m₁.release other = some m₂ → m₂.LoadFresh parent name

theorem readLink_steps {r : Except Errno Name} (h : m.readLink d = some (m', r)) :
    Steps W m m' := by
  obtain rfl | ⟨c, bs, ino, hc, hbytes, rfl⟩ := readLink_goes h
  · exact .refl _
  · have hkept := Ext4Inode.linkBytes_kept hbytes
    refine (setExt4_steps hc hkept.inodeNum fun _ => hkept).trans ?_
    -- the target is kept beside the inode
    have hnum : ∀ D : Dentry, ((keepLink bs D).inode.map fun c => c.ext4.inodeNum) =
        D.inode.map fun c => c.ext4.inodeNum := by
      intro D
      unfold keepLink
      cases D.inode <;> rfl
    refine steps_of_update (d := d) (fun e he => ?_) rfl (fun n hn => Or.inl ?_) (fun D' hD' => ?_)
    · rw [dentries_modify, if_neg he]
    · rw [num, inodeAt, dentries_modify, if_pos rfl] at hn
      rw [num, inodeAt]
      cases hD : (m.setExt4 d ino).dentries d with
      | none =>
        rw [hD] at hn
        cases hn
      | some D =>
        rw [hD] at hn
        exact (hnum D).symm.trans hn
    · rw [dentries_modify, if_pos rfl] at hD'
      obtain ⟨D, hD, rfl⟩ := Option.map_eq_some_iff.mp hD'
      exact ⟨D, hD, fun _ c hc => ⟨{ c with link := some (Ext4Inode.linkTarget bs) },
        by simp [keepLink, hc], .refl _⟩⟩

theorem readlink_steps {path : Name} {r : Except Errno Name} (hfresh : m.LinkFresh path)
    (h : m.readlink path = some (m', r)) : Steps W m m' := by
  cases readlink_goes h with
  | noName => exact .refl _
  | noWalk split walk => exact pathWalk_steps (hfresh _ _ split).1 walk
  | noTarget split walk rel step rel' =>
    obtain ⟨hdir, hname⟩ := hfresh _ _ split
    exact (((pathWalk_steps hdir walk).trans (release_steps rel)).trans
      (walkStep_steps (hname _ _ _ _ walk rel) step)).trans (release_steps rel')
  | @ran m₁ m₂ m₃ _ _ dir name parent other target _ _ split walk rel step link drop =>
    obtain ⟨hdir, hname⟩ := hfresh _ _ split
    have hstep : Steps W m m₃ := ((pathWalk_steps hdir walk).trans (release_steps rel)).trans
      (walkStep_steps (hname _ _ _ _ walk rel) step)
    exact (hstep.trans (readLink_steps link)).trans (finish_steps drop)

/-! ## Operations on open files -/

theorem read_steps {off count : ℕ} {r : Except Errno (List UInt8)}
    (h : m.read d off count = some (m', r)) : Steps W m m' := by
  unfold read at h
  split at h
  · cases h
    exact .refl _
  · rename_i c hc
    obtain ⟨⟨bs, ino⟩, hread, heq⟩ := Option.map_eq_some_iff.mp h
    cases heq
    have hkept := Ext4Inode.read_kept hread
    exact setExt4_steps hc hkept.inodeNum fun _ => hkept

theorem write_steps {off : ℕ} {data : List UInt8} {r : Except Errno ℕ}
    (h : m.write d off data = some (m', r)) : Steps {d} m m' := by
  unfold write at h
  split at h
  · cases h
    exact .refl _
  · rename_i c hc
    obtain ⟨⟨n, ino, fs⟩, hwrite, heq⟩ := Option.map_eq_some_iff.mp h
    cases heq
    refine (setFs_steps m fs).trans ?_
    exact setExt4_steps hc (Ext4Inode.write_spec hwrite).2.inodeNum fun hW => absurd rfl hW

/-- What a write makes of the inode. -/
theorem inodeAt_write {c : CachedInode} {off : ℕ} {data : List UInt8} {r : Except Errno ℕ}
    (hc : m.inodeAt d = some c) (h : m.write d off data = some (m', r)) :
    ∃ n ino fs, c.ext4.write m.volume.fs off (data.map UInt8.toBitVec) = some (n, ino, fs) ∧
      r = .ok n ∧ m'.inodeAt d = some { c with ext4 := ino } := by
  unfold write at h
  rw [hc] at h
  obtain ⟨⟨n, ino, fs⟩, hwrite, heq⟩ := Option.map_eq_some_iff.mp h
  cases heq
  have hc' : (m.setFs fs).inodeAt d = some c := hc
  refine ⟨n, ino, fs, hwrite, rfl, ?_⟩
  rw [inodeAt_setExt4, if_pos rfl, hc', Option.map_some]

theorem getdents_steps {off count : ℕ} {r : Option (ℕ × List UInt8)}
    (h : m.getdents d off count = some (m', r)) : Steps W m m' := by
  unfold getdents at h
  split at h
  · cases h
    exact .refl _
  · rename_i c hc
    obtain ⟨⟨r', ino⟩, hdents, heq⟩ := Option.map_eq_some_iff.mp h
    cases heq
    have hkept := Ext4Inode.getdents_kept hdents
    exact setExt4_steps hc hkept.inodeNum fun _ => hkept

end Mount

end QuackOS.Fs
