import QuackOS.Fs.MountRuns
import QuackOS.Lib.References

/-!
# References to directory entries

An entry in memory is held by its children, by the open files and by the calls under way.  It is
found again as long as it is there: a path that was walked leads through the same entries.

* `Mount.Counted` — the `Arc` counts are the numbers of references;
* `Mount.Recounted` — nothing but the counts differs;
* `Mount.Leads` — a path leads from one entry to another in memory;
* `pathWalk_spec`, `pathWalk_of_leads` — a walk keeps the counts and leaves such a path behind,
  and one that finds such a path follows it;
* `pathWalk_again` — a walk after a walk comes to the same entries;
* `openPath_spec` to `readlink_spec` — every operation on paths keeps the counts.
-/

namespace QuackOS.Fs

open Ext4 (Name Ext4Inode Ext4FileSystem Ext4DirEntry)

namespace Mount

variable {m m' m'' : Mount} {refs : Multiset ℕ} {d e x y cur next : ℕ} {name : Name}

/-- The entries as objects that hold their parents. -/
def heap (m : Mount) : References.Heap := fun d =>
  (m.dentries d).map fun D => ⟨D.parent, D.strong⟩

/-- **The counts are those of the references**: from the children in memory, and `refs` from
outside.  What an entry has as a child is one, if it is still in memory. -/
structure Counted (m : Mount) (refs : Multiset ℕ) : Prop where
  heap : References.Counted m.heap m.nextDentry refs
  children : ∀ d D name c, m.dentries d = some D → D.children name = some c →
    c < m.nextDentry ∧ ∀ C, m.dentries c = some C → C.parent = some d

/-! ## Single changes -/

theorem heap_ne_none : m.heap d ≠ none ↔ m.dentries d ≠ none := by
  simp [heap]

theorem Counted.bounded (hc : m.Counted refs) {D : Dentry} (hD : m.dentries d = some D) :
    d < m.nextDentry :=
  hc.heap.bounded d (heap_ne_none.mpr (by rw [hD]; exact Option.some_ne_none D))

theorem Counted.live (hc : m.Counted refs) (hd : d ∈ refs) : ∃ D, m.dentries d = some D :=
  Option.ne_none_iff_exists'.mp (heap_ne_none.mp (hc.heap.live d hd))

/-- A parent is in memory, and older. -/
theorem Counted.parent (hc : m.Counted refs) {D : Dentry} {p : ℕ} (hD : m.dentries d = some D)
    (hp : D.parent = some p) : p < d ∧ ∃ P, m.dentries p = some P := by
  obtain ⟨hlt, hlive⟩ := hc.heap.older d ⟨D.parent, D.strong⟩ p (by simp [Mount.heap, hD]) hp
  exact ⟨hlt, Option.ne_none_iff_exists'.mp (heap_ne_none.mp hlive)⟩

/-- What the entries are like, but for their inodes and their counts. -/
def shape (m : Mount) (d : ℕ) : Option (Name × Option ℕ × (Name → Option ℕ) × DentryFlags) :=
  (m.dentries d).map fun D => (D.absolutePath, D.parent, D.children, D.flags)

theorem shape_eq_some {s : Name × Option ℕ × (Name → Option ℕ) × DentryFlags} :
    m.shape d = some s ↔ ∃ D, m.dentries d = some D ∧
      (D.absolutePath, D.parent, D.children, D.flags) = s := Option.map_eq_some_iff

/-- The part about children is one about shapes. -/
theorem Counted.of_shape (hc : m.Counted refs) (hshape : m'.shape = m.shape)
    (hnext : m'.nextDentry = m.nextDentry) {refs' : Multiset ℕ}
    (hheap : References.Counted m'.heap m.nextDentry refs') : m'.Counted refs' where
  heap := by rwa [hnext]
  children := fun d D' name c hD' hchild => by
    have hsame := congrFun hshape d
    rw [shape, hD', Option.map_some, eq_comm, shape_eq_some] at hsame
    obtain ⟨D, hD, heq⟩ := hsame
    simp only [Prod.mk.injEq] at heq
    obtain ⟨hlt, hparent⟩ := hc.children d D name c hD (by rw [heq.2.2.1]; exact hchild)
    refine ⟨by rwa [hnext], fun C' hC' => ?_⟩
    have hsame := congrFun hshape c
    rw [shape, hC', Option.map_some, eq_comm, shape_eq_some] at hsame
    obtain ⟨C, hC, heq⟩ := hsame
    simp only [Prod.mk.injEq] at heq
    rw [← heq.2.1]
    exact hparent C hC

/-- Changing the inode or the count of an entry. -/
theorem shape_modify {f : Dentry → Dentry} (hf : ∀ D, (f D).absolutePath = D.absolutePath ∧
    (f D).parent = D.parent ∧ (f D).children = D.children ∧ (f D).flags = D.flags) :
    (m.modify d f).shape = m.shape := by
  funext e
  unfold shape modify
  by_cases he : e = d
  · subst he
    cases m.dentries e with
    | none => simp
    | some D => simp [hf D]
  · simp [Function.update_of_ne he]

theorem shape_clone (m : Mount) (d : ℕ) : (m.clone d).shape = m.shape :=
  shape_modify fun _ => ⟨rfl, rfl, rfl, rfl⟩

theorem shape_setExt4 (m : Mount) (d : ℕ) (ino : Ext4Inode) : (m.setExt4 d ino).shape = m.shape :=
  shape_modify fun _ => ⟨rfl, rfl, rfl, rfl⟩

/-- An entry without its count. -/
def uncounted (D : Dentry) : Dentry := { D with strong := 0 }

/-- Nothing but the counts differs. -/
structure Recounted (m m' : Mount) : Prop where
  rest : m' = { m with dentries := m'.dentries }
  entries : ∀ e, (m'.dentries e).map uncounted = (m.dentries e).map uncounted

namespace Recounted

theorem trans (h : Recounted m m') (h' : Recounted m' m'') : Recounted m m'' where
  rest := by
    rw [h'.rest, h.rest]
  entries := fun e => (h'.entries e).trans (h.entries e)

theorem modify {f : Dentry → Dentry}
    (hf : ∀ D, uncounted (f D) = uncounted D) : Recounted m (m.modify d f) where
  rest := rfl
  entries := fun e => by
    by_cases he : e = d
    · subst he
      cases hD : m.dentries e with
      | none => simp [Mount.modify, hD]
      | some D => simp [Mount.modify, hD, hf D]
    · simp [Mount.modify, Function.update_of_ne he]

theorem clone (m : Mount) (d : ℕ) : Recounted m (m.clone d) := modify fun _ => rfl

theorem root (h : Recounted m m') : m'.root = m.root := by
  rw [h.rest]

/-- What is read off an entry without its count is the same. -/
theorem map {α : Type*} (h : Recounted m m') {f : Dentry → α}
    (hf : ∀ D, f (uncounted D) = f D) (e : ℕ) :
    (m'.dentries e).map f = (m.dentries e).map f := by
  have hsame := congrArg (Option.map f) (h.entries e)
  have hcomp : f ∘ uncounted = f := funext hf
  rwa [Option.map_map, Option.map_map, hcomp] at hsame

theorem shape (h : Recounted m m') : m'.shape = m.shape := funext (h.map fun _ => rfl)

end Recounted

/-- An entry changed, with the same parent and count. -/
theorem heap_modify {f : Dentry → Dentry} (hf : ∀ D, (f D).parent = D.parent ∧ (f D).strong = D.strong) :
    (m.modify d f).heap = m.heap := by
  funext e
  unfold heap modify
  by_cases he : e = d
  · subst he
    cases m.dentries e with
    | none => simp
    | some D => simp [hf D]
  · simp [Function.update_of_ne he]

theorem heap_setExt4 (m : Mount) (d : ℕ) (ino : Ext4Inode) : (m.setExt4 d ino).heap = m.heap :=
  heap_modify fun _ => ⟨rfl, rfl⟩

theorem heap_clone (m : Mount) (d : ℕ) : (m.clone d).heap = References.take m.heap d := by
  funext e
  unfold heap clone modify References.take
  by_cases he : e = d
  · subst he
    cases hD : m.dentries e with
    | none => simp [hD]
    | some D => simp [hD]
  · simp [Function.update_of_ne he]

theorem Counted.clone (hc : m.Counted refs) {D : Dentry} (hD : m.dentries d = some D) :
    (m.clone d).Counted (d ::ₘ refs) :=
  hc.of_shape (shape_clone m d) rfl (by
    rw [heap_clone]
    exact hc.heap.take (heap_ne_none.mpr (by rw [hD]; exact Option.some_ne_none D)))

theorem heap_remove (m : Mount) (d : ℕ) :
    Mount.heap { m with dentries := Function.update m.dentries d none } =
      Function.update m.heap d none := by
  funext e
  unfold heap
  by_cases he : e = d
  · subst he
    simp
  · simp [Function.update_of_ne he]

/-! ## Dropping a reference -/

/-- The entries of `m'` are entries of `m`, but for their counts. -/
def Shed (m m' : Mount) : Prop :=
  ∀ e D', m'.dentries e = some D' → ∃ D, m.dentries e = some D ∧ D' = { D with strong := D'.strong }

theorem Shed.refl (m : Mount) : Shed m m := fun _ D' hD' => ⟨D', hD', rfl⟩

theorem Shed.remove (h : Shed { m with dentries := Function.update m.dentries d none } m') :
    Shed m m' := by
  intro e D' hD'
  obtain ⟨E, hE, heq⟩ := h e D' hD'
  refine ⟨E, ?_, heq⟩
  by_cases he : e = d
  · subst he
    dsimp only at hE
    rw [Function.update_self] at hE
    cases hE
  · rwa [← Function.update_of_ne he none m.dentries]

/-- One reference less to an entry that has more than one. -/
theorem shed_modify {D : Dentry} (hD : m.dentries d = some D) :
    Shed m (m.modify d fun D => { D with strong := D.strong - 1 }) := by
  intro e E' hE'
  by_cases he : e = d
  · subst he
    simp only [modify, Function.update_self, hD, Option.map_some] at hE'
    cases hE'
    exact ⟨D, hD, rfl⟩
  · simp only [modify, Function.update_of_ne he] at hE'
    exact ⟨E', hE', rfl⟩

theorem heap_modify_strong (m : Mount) (d : ℕ) :
    (m.modify d fun D => { D with strong := D.strong - 1 }).heap =
      Function.update m.heap d ((m.heap d).map fun N => { N with count := N.count - 1 }) := by
  funext e
  unfold heap modify
  by_cases he : e = d
  · subst he
    cases m.dentries e <;> simp
  · simp [Function.update_of_ne he]

/-- Writing an inode back leaves the entries alone. -/
theorem dentries_dropInode {o : Option CachedInode} (h : o.elim (some m) m.dropInode = some m') :
    m'.dentries = m.dentries ∧ m'.nextDentry = m.nextDentry ∧ m'.root = m.root := by
  cases o with
  | none =>
    cases h
    exact ⟨rfl, rfl, rfl⟩
  | some c =>
    obtain ⟨fs, -, heq⟩ := Option.map_eq_some_iff.mp h
    cases heq
    exact ⟨rfl, rfl, rfl⟩

/-- A release takes references and entries away, and nothing else. -/
theorem releaseLoop_spec {fuel : ℕ} (h : releaseLoop fuel m d = some m') :
    m'.heap = References.drop fuel m.heap d ∧ m'.nextDentry = m.nextDentry ∧ m'.root = m.root ∧
      Shed m m' := by
  induction fuel generalizing m m' d with
  | zero =>
    cases h
    exact ⟨rfl, rfl, rfl, .refl m⟩
  | succ fuel ih =>
    unfold releaseLoop at h
    cases hD : m.dentries d with
    | none =>
      rw [hD] at h
      cases h
      have hnone : m.heap d = none := by simp [heap, hD]
      exact ⟨by rw [References.drop, hnone], rfl, rfl, .refl m⟩
    | some D =>
      rw [hD] at h
      dsimp only at h
      have hN : m.heap d = some ⟨D.parent, D.strong⟩ := by simp [heap, hD]
      rw [References.drop, hN]
      dsimp only
      split at h
      case isTrue hmore =>
        cases h
        refine ⟨?_, rfl, rfl, shed_modify hD⟩
        rw [if_pos hmore, heap_modify_strong, hN]
      case isFalse hlast =>
        obtain ⟨m₂, hm₂, h⟩ := Option.bind_eq_some_iff.mp h
        obtain ⟨hdentries, hnext, hroot⟩ := dentries_dropInode h
        have hheap : m'.heap = m₂.heap := by
          unfold heap
          rw [hdentries]
        have hshed : Shed m m₂ → Shed m m' := fun hs e D' hD' => hs e D' (by rwa [← hdentries])
        rw [hheap, hnext, hroot, if_neg hlast]
        cases hparent : D.parent with
        | none =>
          rw [hparent] at hm₂
          cases hm₂
          exact ⟨heap_remove m d, rfl, rfl, hshed (Shed.refl _).remove⟩
        | some p =>
          rw [hparent] at hm₂
          obtain ⟨hh, hn, hr, hold⟩ := ih hm₂
          exact ⟨by rw [hh, heap_remove, Option.elim_some], hn, hr, hshed hold.remove⟩

theorem Counted.release (hc : m.Counted (d ::ₘ refs)) (h : m.release d = some m') :
    m'.Counted refs := by
  obtain ⟨hheap, hn, -, hold⟩ := releaseLoop_spec h
  refine ⟨?_, fun e E' name c hE' hchild => ?_⟩
  · rw [hheap, hn]
    exact hc.heap.drop (Nat.lt_succ_self d)
  · obtain ⟨E, hE, heq⟩ := hold e E' hE'
    obtain ⟨hlt, hparent⟩ := hc.children e E name c hE (by rw [heq] at hchild; exact hchild)
    refine ⟨by rwa [hn], fun C' hC' => ?_⟩
    obtain ⟨C, hC, heq'⟩ := hold c C' hC'
    rw [heq']
    exact hparent C hC

/-- An entry that is held otherwise stays. -/
theorem Counted.release_of_shared (hc : m.Counted (d ::ₘ refs))
    (hshared : d ∈ refs ∨ ∃ e E, m.dentries e = some E ∧ E.parent = some d) :
    ∃ m', m.release d = some m' ∧ Recounted m m' ∧ m'.Counted refs := by
  obtain ⟨D, hD⟩ := hc.live (Multiset.mem_cons_self d refs)
  have hN : m.heap d = some ⟨D.parent, D.strong⟩ := by simp [Mount.heap, hD]
  have hmore : 1 < D.strong := by
    have hcount := hc.heap.count_of_cons hN
    dsimp only at hcount
    rcases hshared with hmem | ⟨e, E, hE, hp⟩
    · have := Multiset.one_le_count_iff_mem.mpr hmem
      omega
    · have hne : (References.holders m.heap d).Nonempty :=
        ⟨e, ⟨E.parent, E.strong⟩, by simp [Mount.heap, hE], hp⟩
      have := hne.ncard_pos (hc.heap.finite_holders d)
      omega
  have hrelease : m.release d = some (m.modify d fun D => { D with strong := D.strong - 1 }) := by
    rw [Mount.release, releaseLoop, hD]
    dsimp only
    rw [if_pos hmore]
  exact ⟨_, hrelease, .modify fun _ => rfl, hc.release hrelease⟩

/-! ## Looking up -/

/-- What a walk leaves of the entries that were there: all but their inodes and their counts, and
the children that are still in memory. -/
structure Walked (m m' : Mount) : Prop where
  le : m.nextDentry ≤ m'.nextDentry
  root : m'.root = m.root
  old : ∀ e < m.nextDentry, ∀ D', m'.dentries e = some D' → ∃ D, m.dentries e = some D ∧
    D'.absolutePath = D.absolutePath ∧ D'.parent = D.parent ∧ D'.flags = D.flags
  kept : ∀ e < m.nextDentry, ∀ c < m.nextDentry, ∀ D D' C' name, m.dentries e = some D →
    D.children name = some c → m'.dentries e = some D' → m'.dentries c = some C' →
      D'.children name = some c

theorem Walked.refl (m : Mount) : Walked m m where
  le := le_rfl
  root := rfl
  old := fun _ _ D' hD' => ⟨D', hD', rfl, rfl, rfl⟩
  kept := fun e _ c _ D D' C' name hD hchild hD' _ => by
    rw [hD] at hD'
    cases hD'
    exact hchild

theorem Walked.trans (h : Walked m m') (h' : Walked m' m'') : Walked m m'' where
  le := h.le.trans h'.le
  root := h'.root.trans h.root
  old := fun e he D'' hD'' => by
    obtain ⟨D', hD', hp', hq', hf'⟩ := h'.old e (he.trans_le h.le) D'' hD''
    obtain ⟨D, hD, hp, hq, hf⟩ := h.old e he D' hD'
    exact ⟨D, hD, hp'.trans hp, hq'.trans hq, hf'.trans hf⟩
  kept := fun e he c hlt D D'' C'' name hD hchild hD'' hC'' => by
    obtain ⟨D', hD', -⟩ := h'.old e (he.trans_le h.le) D'' hD''
    obtain ⟨C', hC', -⟩ := h'.old c (hlt.trans_le h.le) C'' hC''
    have hchild' := h.kept e he c hlt D D' C' name hD hchild hD' hC'
    exact h'.kept e (he.trans_le h.le) c (hlt.trans_le h.le) D' D'' C'' name hD' hchild' hD'' hC''

theorem walked_of_shape (hshape : m'.shape = m.shape) (hn : m'.nextDentry = m.nextDentry)
    (hr : m'.root = m.root) : Walked m m' := by
  have hold : ∀ e D', m'.dentries e = some D' → ∃ D, m.dentries e = some D ∧
      D'.absolutePath = D.absolutePath ∧ D'.parent = D.parent ∧ D'.flags = D.flags ∧
        D'.children = D.children := by
    intro e D' hD'
    have hsame := congrFun hshape e
    rw [shape, hD', Option.map_some, eq_comm, shape_eq_some] at hsame
    obtain ⟨D, hD, heq⟩ := hsame
    simp only [Prod.mk.injEq] at heq
    exact ⟨D, hD, heq.1.symm, heq.2.1.symm, heq.2.2.2.symm, heq.2.2.1.symm⟩
  refine ⟨hn.ge, hr, fun e _ D' hD' => ?_, fun e _ c _ D D' C' name hD hchild hD' _ => ?_⟩
  · obtain ⟨D, hD, hp, hq, hf, -⟩ := hold e D' hD'
    exact ⟨D, hD, hp, hq, hf⟩
  · obtain ⟨D₀, hD₀, -, -, -, hsame⟩ := hold e D' hD'
    rw [hD] at hD₀
    cases hD₀
    rw [hsame, hchild]

/-- The children of one entry change, but for those in memory. -/
theorem walked_children (m : Mount) (x : ℕ) (f : (Name → Option ℕ) → Name → Option ℕ)
    (hf : ∀ D name c C, m.dentries x = some D → D.children name = some c →
      m.dentries c = some C → f D.children name = some c) :
    Walked m (m.modify x fun D => { D with children := f D.children }) := by
  have hold : ∀ e D', (m.modify x fun D => { D with children := f D.children }).dentries e =
      some D' → ∃ D, m.dentries e = some D ∧
        D' = if e = x then { D with children := f D.children } else D := by
    intro e D' hD'
    by_cases he : e = x
    · subst he
      simp only [modify, Function.update_self] at hD'
      obtain ⟨D, hD, rfl⟩ := Option.map_eq_some_iff.mp hD'
      exact ⟨D, hD, by rw [if_pos rfl]⟩
    · simp only [modify, Function.update_of_ne he] at hD'
      exact ⟨D', hD', by rw [if_neg he]⟩
  refine ⟨le_rfl, rfl, fun e _ D' hD' => ?_, fun e _ c _ D D' C' name hD hchild hD' hC' => ?_⟩
  · obtain ⟨D, hD, rfl⟩ := hold e D' hD'
    refine ⟨D, hD, ?_⟩
    split <;> exact ⟨rfl, rfl, rfl⟩
  · obtain ⟨D₀, hD₀, rfl⟩ := hold e D' hD'
    obtain ⟨C, hC, -⟩ := hold c C' hC'
    rw [hD] at hD₀
    cases hD₀
    split
    · rename_i he
      subst he
      exact hf D name c C hD hchild hC
    · exact hchild

theorem walked_release (h : m.release d = some m') : Walked m m' := by
  obtain ⟨-, hn, hr, hold⟩ := releaseLoop_spec h
  refine ⟨hn.ge, hr, fun e _ D' hD' => ?_, fun e _ c _ D D' C' name hD hchild hD' _ => ?_⟩
  · obtain ⟨D, hD, heq⟩ := hold e D' hD'
    exact ⟨D, hD, by rw [heq], by rw [heq], by rw [heq]⟩
  · obtain ⟨D₀, hD₀, heq⟩ := hold e D' hD'
    rw [hD] at hD₀
    cases hD₀
    rw [heq, hchild]

/-- The children of an entry change to ones that are its children. -/
theorem Counted.modify_children (hc : m.Counted refs) (f : (Name → Option ℕ) → Name → Option ℕ)
    (hf : ∀ D name c, m.dentries d = some D → f D.children name = some c →
      c < m.nextDentry ∧ ∀ C, m.dentries c = some C → C.parent = some d) :
    (m.modify d fun D => { D with children := f D.children }).Counted refs where
  heap := by
    have hheap := @heap_modify m d (fun D => { D with children := f D.children })
      fun _ => ⟨rfl, rfl⟩
    rw [hheap]
    exact hc.heap
  children := fun e E' name c hE' hchild => by
    have hparents : ∀ C', (m.modify d fun D => { D with children := f D.children }).dentries c =
        some C' → ∃ C, m.dentries c = some C ∧ C'.parent = C.parent := by
      intro C' hC'
      by_cases hcd : c = d
      · subst hcd
        simp only [modify, Function.update_self] at hC'
        obtain ⟨C, hC, rfl⟩ := Option.map_eq_some_iff.mp hC'
        exact ⟨C, hC, rfl⟩
      · simp only [modify, Function.update_of_ne hcd] at hC'
        exact ⟨C', hC', rfl⟩
    have hold : c < m.nextDentry ∧ ∀ C, m.dentries c = some C → C.parent = some e := by
      by_cases he : e = d
      · subst he
        simp only [modify, Function.update_self] at hE'
        obtain ⟨E, hE, rfl⟩ := Option.map_eq_some_iff.mp hE'
        exact hf E name c hE hchild
      · simp only [modify, Function.update_of_ne he] at hE'
        exact hc.children e E' name c hE' hchild
    refine ⟨hold.1, fun C' hC' => ?_⟩
    obtain ⟨C, hC, heq⟩ := hparents C' hC'
    rw [heq]
    exact hold.2 C hC

/-- A child is entered. -/
theorem Counted.insertChild (hc : m.Counted refs) {C : Dentry} (hC : m.dentries e = some C)
    (hparent : C.parent = some d) (name : Name) : (m.insertChild d name e).Counted refs := by
  refine hc.modify_children (fun f => Function.update f name (some e)) fun D name' c hD hchild => ?_
  by_cases hname : name' = name
  · subst hname
    rw [Function.update_self] at hchild
    cases hchild
    refine ⟨hc.bounded hC, fun C' hC' => ?_⟩
    rw [hC] at hC'
    cases hC'
    exact hparent
  · rw [Function.update_of_ne hname] at hchild
    exact hc.children d D name' c hD hchild

/-- A lookup that came to an entry in memory, with a reference to it. -/
structure Found (refs : Multiset ℕ) (d : ℕ) (name : Name) (m m' : Mount) (child : ℕ) : Prop where
  walked : Walked m m'
  counted : m'.Counted (child ::ₘ refs)
  entered : ∃ D, m'.dentries d = some D ∧ D.children name = some child

theorem dentries_modify_self {f : Dentry → Dentry} {D : Dentry} (hD : m.dentries d = some D) :
    (m.modify d f).dentries d = some (f D) := by
  simp [modify, hD]

/-- An entry that is there stays while only counts, inodes and children change. -/
theorem exists_modify {f : Dentry → Dentry} {D : Dentry} (hD : m.dentries e = some D) :
    ∃ D', (m.modify d f).dentries e = some D' := by
  by_cases he : e = d
  · subst he
    exact ⟨f D, dentries_modify_self hD⟩
  · exact ⟨D, by simp only [modify, Function.update_of_ne he, hD]⟩

theorem lookupChild_hit {D : Dentry} (hc : m.Counted refs) (hD : m.dentries d = some D)
    {child : ℕ} (h : m.lookupChild d name = (m', some child)) : Found refs d name m m' child := by
  unfold lookupChild at h
  rw [hD, Option.bind_some] at h
  split at h
  · cases h
  · rename_i c hchild
    split at h
    · rename_i C hC
      cases h
      refine ⟨walked_of_shape (shape_clone m child) rfl rfl, hc.clone hC, ?_⟩
      by_cases hcd : d = child
      · -- an entry is older than its children
        have hparent := (hc.children d D name child hD hchild).2 C hC
        have := (hc.parent hC hparent).1
        omega
      · refine ⟨D, ?_, hchild⟩
        simp only [clone, modify, Function.update_of_ne hcd, hD]
    · cases h

theorem lookupChild_none {D : Dentry} (hc : m.Counted refs) (hD : m.dentries d = some D)
    (h : m.lookupChild d name = (m', none)) : Walked m m' ∧ m'.Counted refs ∧
      (∃ D', m'.dentries d = some D' ∧ D'.children name = none) := by
  unfold lookupChild at h
  rw [hD, Option.bind_some] at h
  split at h
  · rename_i hnone
    cases h
    exact ⟨.refl m, hc, D, hD, hnone⟩
  · rename_i c hchild
    split at h
    · cases h
    · rename_i hdead
      cases h
      have hkept : ∀ D' name' c' C', m.dentries d = some D' → D'.children name' = some c' →
          m.dentries c' = some C' → Function.update D'.children name none name' = some c' := by
        intro D' name' c' C' hD' hchild' hC'
        rw [hD] at hD'
        cases hD'
        rw [Function.update_of_ne, hchild']
        rintro rfl
        rw [hchild] at hchild'
        cases hchild'
        rw [hdead] at hC'
        cases hC'
      refine ⟨walked_children m d (fun f => Function.update f name none) hkept,
        hc.modify_children (fun f => Function.update f name none) fun D name' c' hD' hchild' => ?_,
        _, dentries_modify_self hD, Function.update_self ..⟩
      by_cases hname : name' = name
      · subst hname
        rw [Function.update_self] at hchild'
        cases hchild'
      · rw [Function.update_of_ne hname] at hchild'
        exact hc.children d D name' c' hD' hchild'

section NewDentry

variable (m d name) (flags : DentryFlags) (inode : Option CachedInode)

theorem dentries_newDentry_of_ne (hx : x ≠ m.nextDentry) :
    (m.newDentry d name flags inode).1.dentries x = (m.clone d).dentries x := by
  simp [newDentry, clone, modify, Function.update_of_ne hx]

/-- A new entry is one more on the heap, and holds its parent. -/
theorem heap_newDentry : (m.newDentry d name flags inode).1.heap =
    References.add m.heap m.nextDentry d := by
  rw [References.add, ← heap_clone]
  funext x
  by_cases hx : x = m.nextDentry
  · subst hx
    simp [Mount.heap, newDentry, clone, modify]
  · rw [Function.update_of_ne hx, Mount.heap, Mount.heap, dentries_newDentry_of_ne m d name _ _ hx]

/-- An entry that was there keeps its path, its parent, its flags and its children. -/
theorem old_of_newDentry {X' : Dentry} (hx : x ≠ m.nextDentry)
    (hX' : (m.newDentry d name flags inode).1.dentries x = some X') :
    ∃ X, m.dentries x = some X ∧ X'.absolutePath = X.absolutePath ∧ X'.parent = X.parent ∧
      X'.flags = X.flags ∧ X'.children = X.children := by
  rw [dentries_newDentry_of_ne m d name _ _ hx] at hX'
  have hsame := congrFun (shape_clone m d) x
  rw [shape, hX', Option.map_some, eq_comm, shape_eq_some] at hsame
  obtain ⟨X, hX, heq⟩ := hsame
  simp only [Prod.mk.injEq] at heq
  exact ⟨X, hX, heq.1.symm, heq.2.1.symm, heq.2.2.2.symm, heq.2.2.1.symm⟩

end NewDentry

/-- A new entry is a child of one in memory. -/
theorem newDentry_spec {D : Dentry} (hc : m.Counted refs) (hD : m.dentries d = some D)
    {flags : DentryFlags} {inode : Option CachedInode}
    (h : m.newDentry d name flags inode = (m', e)) : Walked m m' ∧ m'.Counted (e ::ₘ refs) ∧
      (∃ C, m'.dentries e = some C ∧ C.parent = some d) ∧
        ∃ D', m'.dentries d = some D' ∧ D'.children = D.children := by
  have hlt := hc.bounded hD
  obtain ⟨rfl, rfl⟩ : m' = (m.newDentry d name flags inode).1 ∧ e = m.nextDentry := by
    rw [h]
    refine ⟨rfl, ?_⟩
    have := congrArg Prod.snd h
    exact this.symm
  have hnew : ∃ C, (m.newDentry d name flags inode).1.dentries m.nextDentry = some C ∧
      C.parent = some d ∧ C.children = fun _ => none :=
    ⟨_, Function.update_self .., rfl, rfl⟩
  obtain ⟨C, hC, hparent, hchildren⟩ := hnew
  refine ⟨⟨Nat.le_succ _, rfl, fun x hx X' hX' => ?_, fun x hx c _ X X' C' name hX hchild hX' _ => ?_⟩,
    ⟨?_, fun x X' name' c hX' hchild => ?_⟩, ⟨C, hC, hparent⟩, ?_⟩
  · obtain ⟨X, hX, hp, hq, hf, -⟩ := old_of_newDentry m d name flags inode (Nat.ne_of_lt hx) hX'
    exact ⟨X, hX, hp, hq, hf⟩
  · obtain ⟨X₀, hX₀, -, -, -, hch⟩ := old_of_newDentry m d _ flags inode (Nat.ne_of_lt hx) hX'
    rw [hX] at hX₀
    cases hX₀
    rw [hch, hchild]
  · rw [heap_newDentry]
    exact hc.heap.add (heap_ne_none.mpr (by rw [hD]; exact Option.some_ne_none D))
  · by_cases hx : x = m.nextDentry
    · -- no children yet
      subst hx
      rw [hC] at hX'
      cases hX'
      rw [hchildren] at hchild
      cases hchild
    · obtain ⟨X, hX, -, -, -, hch⟩ := old_of_newDentry m d name flags inode hx hX'
      obtain ⟨hclt, hcp⟩ := hc.children x X name' c hX (by rw [← hch]; exact hchild)
      refine ⟨hclt.trans (Nat.lt_succ_self _), fun C' hC' => ?_⟩
      obtain ⟨C₀, hC₀, -, hq, -, -⟩ := old_of_newDentry m d name flags inode (Nat.ne_of_lt hclt) hC'
      rw [hq]
      exact hcp C₀ hC₀
  · rw [dentries_newDentry_of_ne m d name flags inode hlt.ne]
    exact ⟨_, dentries_modify_self hD, rfl⟩

theorem Counted.setExt4 (hc : m.Counted refs) (d : ℕ) (ino : Ext4Inode) :
    (m.setExt4 d ino).Counted refs := by
  refine hc.of_shape (shape_setExt4 m d ino) rfl ?_
  rw [heap_setExt4]
  exact hc.heap

theorem newChild_spec {D : Dentry} (hc : m.Counted refs) (hD : m.dentries d = some D)
    {entry : Option Ext4DirEntry} (h : m.newChild d name entry = some (m', e)) : Walked m m' ∧
      m'.Counted (e ::ₘ refs) ∧ (∃ C, m'.dentries e = some C ∧ C.parent = some d) ∧
        ∃ D', m'.dentries d = some D' ∧ D'.children = D.children := by
  cases entry with
  | none => exact newDentry_spec hc hD (Option.some.inj h)
  | some entry =>
    obtain ⟨c, -, hnew⟩ := Option.map_eq_some_iff.mp h
    exact newDentry_spec hc hD hnew

/-- Entering a child under its name, where no other child stands. -/
theorem Found.insertChild {D C : Dentry} (hw : Walked m m') (hc : m'.Counted (e ::ₘ refs))
    (hD : m'.dentries d = some D) (hfree : ∀ c, D.children name = some c → c = e)
    (hC : m'.dentries e = some C) (hparent : C.parent = some d) :
    Found refs d name m (m'.insertChild d name e) e where
  walked := by
    refine hw.trans (walked_children m' d (fun f => Function.update f name (some e)) ?_)
    intro D' name' c _ hD' hchild _
    rw [hD] at hD'
    cases hD'
    by_cases hname : name' = name
    · subst hname
      rw [Function.update_self, hfree c hchild]
    · rw [Function.update_of_ne hname, hchild]
  counted := hc.insertChild hC hparent name
  entered := ⟨_, dentries_modify_self hD, Function.update_self ..⟩

/-- What was found is entered once more. -/
theorem Found.again (h : Found refs d name m m' e) :
    Found refs d name m (m'.insertChild d name e) e := by
  obtain ⟨D, hD, hchild⟩ := h.entered
  obtain ⟨C, hC⟩ := h.counted.live (Multiset.mem_cons_self e refs)
  refine .insertChild h.walked h.counted hD (fun c hc => ?_) hC
    ((h.counted.children d D name e hD hchild).2 C hC)
  rw [hchild] at hc
  exact (Option.some.inj hc).symm

theorem lookup_found {D : Dentry} {c : CachedInode} (hc : m.Counted refs)
    (hD : m.dentries d = some D) (h : m.lookup d c name = some (m', e)) :
    Found refs d name m m' e := by
  unfold lookup at h
  split at h
  · rename_i m₁ child hhit
    cases h
    exact lookupChild_hit hc hD hhit
  · rename_i m₁ hmiss
    obtain ⟨hw, hc₁, D₁, hD₁, hnone⟩ := lookupChild_none hc hD hmiss
    obtain ⟨⟨entry, ino⟩, -, h⟩ := Option.bind_eq_some_iff.mp h
    obtain ⟨⟨m₂, e'⟩, hnew, h⟩ := Option.bind_eq_some_iff.mp h
    cases h
    have hw₂ : Walked m₁ (m₁.setExt4 d ino) :=
      walked_of_shape (shape_setExt4 m₁ d ino) rfl rfl
    have hD₂ := dentries_modify_self (f := fun D => { D with inode := D.inode.map fun c =>
      { c with ext4 := ino } }) hD₁
    obtain ⟨hw₃, hc₃, ⟨C, hC, hparent⟩, D₃, hD₃, hchildren⟩ :=
      newChild_spec (hc₁.setExt4 d ino) hD₂ hnew
    refine .insertChild ((hw.trans hw₂).trans hw₃) hc₃ hD₃ (fun c hc => ?_) hC hparent
    rw [hchildren] at hc
    exact absurd (hnone.symm.trans hc) (Option.some_ne_none c).symm

/-- **One round of a walk.** -/
theorem walkStep_spec {r : Except Errno ℕ} (hc : m.Counted (cur ::ₘ refs))
    (h : m.walkStep cur name = some (m', r)) : Walked m m' ∧
      match r with
      | .ok next => Found (cur ::ₘ refs) cur name m m' next
      | .error _ => m'.Counted (cur ::ₘ refs) := by
  obtain ⟨D, hD⟩ := hc.live (Multiset.mem_cons_self cur refs)
  unfold walkStep at h
  split at h
  · rename_i m₁ child hhit
    cases h
    have hfound := lookupChild_hit hc hD hhit
    exact ⟨hfound.walked, hfound⟩
  · rename_i m₁ hmiss
    obtain ⟨hw, hc₁, D₁, hD₁, -⟩ := lookupChild_none hc hD hmiss
    split at h
    · cases h
      exact ⟨hw, hc₁⟩
    · rename_i c hinode
      obtain ⟨⟨m₂, child⟩, hlookup, heq⟩ := Option.map_eq_some_iff.mp h
      cases heq
      obtain ⟨hw', hc', hchild⟩ := lookup_found hc₁ hD₁ hlookup
      have hfound : Found (cur ::ₘ refs) cur name m m₂ child := ⟨hw.trans hw', hc', hchild⟩
      exact ⟨hfound.again.walked, hfound.again⟩

/-! ## Walking -/

/-- A path leads from one entry to another, in memory. -/
def Leads (m : Mount) : ℕ → List Name → ℕ → Prop
  | x, [], y => x = y ∧ ∃ D, m.dentries x = some D
  | x, name :: names, y => ∃ D c, m.dentries x = some D ∧ D.children name = some c ∧ m.Leads c names y

theorem Leads.start {names : List Name} (h : m.Leads x names y) : ∃ D, m.dentries x = some D := by
  cases names with
  | nil => exact h.2
  | cons name names =>
    obtain ⟨D, c, hD, -, -⟩ := h
    exact ⟨D, hD⟩

theorem Leads.of_children {names : List Name} (h : m.Leads x names y)
    (hsame : ∀ z D, m.dentries z = some D → ∃ D', m'.dentries z = some D' ∧
      D'.children = D.children) : m'.Leads x names y := by
  induction names generalizing x with
  | nil =>
    obtain ⟨rfl, D, hD⟩ := h
    obtain ⟨D', hD', -⟩ := hsame x D hD
    exact ⟨rfl, D', hD'⟩
  | cons name names ih =>
    obtain ⟨D, c, hD, hchild, hrest⟩ := h
    obtain ⟨D', hD', heq⟩ := hsame x D hD
    exact ⟨D', c, hD', by rw [heq, hchild], ih hrest⟩

theorem Leads.of_shape {names : List Name} (h : m.Leads x names y) (hshape : m'.shape = m.shape) :
    m'.Leads x names y := by
  refine h.of_children fun z D hD => ?_
  have hz := congrFun hshape z
  rw [shape, shape, hD, Option.map_some] at hz
  obtain ⟨D', hD', heq⟩ := Option.map_eq_some_iff.mp hz
  simp only [Prod.mk.injEq] at heq
  exact ⟨D', hD', heq.2.2.1⟩

/-- What a walk returns beside an entry: its parent, or the entry itself for an empty path. -/
def Below (m : Mount) (names : List Name) (d parent : ℕ) : Prop :=
  if names = [] then parent = d else ∃ D, m.dentries d = some D ∧ D.parent = some parent

/-- While the entry is held, so is what is returned beside it. -/
theorem Below.shared {names : List Name} {parent : ℕ} (h : m.Below names d parent) (hd : d ∈ refs) :
    parent ∈ refs ∨ ∃ e E, m.dentries e = some E ∧ E.parent = some parent := by
  unfold Below at h
  split at h
  · subst h
    exact Or.inl hd
  · obtain ⟨D, hD, hp⟩ := h
    exact Or.inr ⟨d, D, hD, hp⟩

theorem Below.of_shape {names : List Name} {parent : ℕ} (h : m.Below names d parent)
    (hshape : m'.shape = m.shape) : m'.Below names d parent := by
  unfold Below at h ⊢
  split at h
  · rwa [if_pos ‹_›]
  · rw [if_neg ‹_›]
    obtain ⟨D, hD, hp⟩ := h
    have hsame := congrFun hshape d
    rw [shape, shape, hD, Option.map_some] at hsame
    obtain ⟨D', hD', heq⟩ := Option.map_eq_some_iff.mp hsame
    simp only [Prod.mk.injEq] at heq
    exact ⟨D', hD', heq.2.1.trans hp⟩

theorem Below.unique {names : List Name} {parent parent' : ℕ} (h : m.Below names d parent)
    (h' : m.Below names d parent') : parent' = parent := by
  unfold Below at h h'
  split at h
  · rename_i hnil
    rw [if_pos hnil] at h'
    rw [h, h']
  · rename_i hcons
    rw [if_neg hcons] at h'
    obtain ⟨D, hD, hp⟩ := h
    obtain ⟨D', hD', hp'⟩ := h'
    rw [hD] at hD'
    cases hD'
    rw [hp] at hp'
    exact (Option.some.inj hp').symm

theorem Below.cons {names : List Name} {name : Name} {parent : ℕ} (h : m.Below names d parent)
    (hmore : names ≠ []) : m.Below (name :: names) d parent := by
  rw [Below, if_neg hmore] at h
  rw [Below, if_neg (List.cons_ne_nil _ _)]
  exact h

/-- **A walk leaves its path behind**, and holds the entry it came to and the one before. -/
theorem walkLoop_spec {names : List Name} {r : Except Errno (ℕ × ℕ)}
    (hc : m.Counted (cur ::ₘ refs)) (h : walkLoop names m cur = some (m', r)) : Walked m m' ∧
      match r with
      | .ok (d, parent) =>
        m'.Counted (d ::ₘ parent ::ₘ refs) ∧ m'.Leads cur names d ∧ m'.Below names d parent
      | .error _ => m'.Counted refs := by
  induction names generalizing m cur with
  | nil =>
    cases h
    obtain ⟨D, hD⟩ := hc.live (Multiset.mem_cons_self cur refs)
    exact ⟨walked_of_shape (shape_clone m cur) rfl rfl, hc.clone hD, ⟨rfl, exists_modify hD⟩,
      by rw [Below, if_pos rfl]⟩
  | cons name names ih =>
    obtain ⟨⟨m₁, r₁⟩, hstep, h⟩ := Option.bind_eq_some_iff.mp h
    obtain ⟨hw₁, hfound⟩ := walkStep_spec hc hstep
    cases r₁ with
    | error e =>
      obtain ⟨m₂, hrelease, h⟩ := Option.bind_eq_some_iff.mp h
      cases h
      exact ⟨hw₁.trans (walked_release hrelease), Counted.release hfound hrelease⟩
    | ok next =>
      dsimp only at h hfound
      obtain ⟨D, hD, hchild⟩ := hfound.entered
      obtain ⟨C, hC⟩ := hfound.counted.live (Multiset.mem_cons_self _ _)
      have hparent := (hfound.counted.children cur D name next hD hchild).2 C hC
      split at h
      · rename_i hlast
        cases h
        subst hlast
        exact ⟨hw₁, hfound.counted, ⟨D, next, hD, hchild, rfl, C, hC⟩, by
          rw [Below, if_neg (List.cons_ne_nil _ _)]
          exact ⟨C, hC, hparent⟩⟩
      · rename_i hmore
        obtain ⟨m₂, hrelease, h⟩ := Option.bind_eq_some_iff.mp h
        have hcounted := hfound.counted
        rw [Multiset.cons_swap] at hcounted
        have hc₂ := hcounted.release hrelease
        obtain ⟨hw, hresult⟩ := ih hc₂ h
        have hlt := (hfound.counted.parent hC hparent).1
        refine ⟨(hw₁.trans (walked_release hrelease)).trans hw, ?_⟩
        cases r with
        | error e => exact hresult
        | ok p =>
          obtain ⟨d, parent⟩ := p
          obtain ⟨hc', hleads, hbelow⟩ := hresult
          refine ⟨hc', ?_, hbelow.cons hmore⟩
          -- the entry before is held by the next one, which stays its child
          have hkept : Walked m₁ m' := (walked_release hrelease).trans hw
          have hnext := hfound.counted.bounded hC
          have hcur := hfound.counted.bounded hD
          obtain ⟨C', hC'⟩ := hleads.start
          obtain ⟨C₀, hC₀, -, hsame, -⟩ := hkept.old next hnext C' hC'
          rw [hC] at hC₀
          cases hC₀
          obtain ⟨-, D', hD'⟩ := hc'.parent hC' (hsame.trans hparent)
          exact ⟨D', next, hD', hkept.kept cur hcur next hnext D D' C' name hD hchild hD' hC', hleads⟩

theorem pathWalk_spec {path : Name} {r : Except Errno (ℕ × ℕ)} (hc : m.Counted refs)
    (hroot : m.root ∈ refs) (h : m.pathWalk path = some (m', r)) : m'.root = m.root ∧
      match r with
      | .ok (d, parent) => m'.Counted (d ::ₘ parent ::ₘ refs) ∧
        m'.Leads m.root (components path) d ∧ m'.Below (components path) d parent
      | .error _ => m'.Counted refs := by
  obtain ⟨D, hD⟩ := hc.live hroot
  obtain ⟨hw, hresult⟩ := walkLoop_spec (hc.clone hD) h
  cases r <;> exact ⟨hw.root, hresult⟩

theorem pathWalk_walked {path : Name} {r : Except Errno (ℕ × ℕ)} (hc : m.Counted refs)
    (hroot : m.root ∈ refs) (h : m.pathWalk path = some (m', r)) : Walked m m' := by
  obtain ⟨D, hD⟩ := hc.live hroot
  have hclone : Walked m (m.clone m.root) := walked_of_shape (shape_clone m m.root) rfl rfl
  exact hclone.trans (walkLoop_spec (hc.clone hD) h).1

/-- **A walk follows the path that is there.** -/
theorem walkLoop_of_leads {names : List Name} (hc : m.Counted (cur ::ₘ refs))
    (hleads : m.Leads cur names d) : ∃ m' parent, walkLoop names m cur = some (m', .ok (d, parent)) ∧
      Recounted m m' ∧ m'.Counted (d ::ₘ parent ::ₘ refs) ∧ m'.Below names d parent := by
  induction names generalizing m cur with
  | nil =>
    obtain ⟨rfl, D, hD⟩ := hleads
    exact ⟨m.clone cur, cur, rfl, .clone m cur, hc.clone hD, by rw [Below, if_pos rfl]⟩
  | cons name names ih =>
    obtain ⟨D, next, hD, hchild, hrest⟩ := hleads
    obtain ⟨C, hC⟩ := hrest.start
    have hstep : m.walkStep cur name = some (m.clone next, .ok next) := by
      rw [walkStep, lookupChild, hD, Option.bind_some, hchild]
      dsimp only
      rw [hC]
    have hc₁ := hc.clone hC
    have hparent := (hc.children cur D name next hD hchild).2 C hC
    rw [walkLoop, hstep]
    simp only [Option.bind_eq_bind, Option.bind_some]
    split
    · rename_i hlast
      subst hlast
      obtain ⟨rfl, -⟩ := hrest
      refine ⟨m.clone next, cur, rfl, .clone m next, hc₁, ?_⟩
      rw [Below, if_neg (List.cons_ne_nil _ _)]
      exact ⟨_, dentries_modify_self hC, hparent⟩
    · rename_i hmore
      rw [Multiset.cons_swap] at hc₁
      -- the entry before is held by its child
      have hshared : ∃ e E, (m.clone next).dentries e = some E ∧ E.parent = some cur :=
        ⟨next, _, dentries_modify_self hC, hparent⟩
      obtain ⟨m₂, hrelease, hsame, hc₂⟩ := hc₁.release_of_shared (Or.inr hshared)
      have hsame₂ := (Recounted.clone m next).trans hsame
      obtain ⟨m', parent, hwalk, hsame', hc', hbelow⟩ := ih hc₂ (hrest.of_shape hsame₂.shape)
      refine ⟨m', parent, ?_, hsame₂.trans hsame', hc', hbelow.cons hmore⟩
      rw [hrelease]
      exact hwalk

theorem pathWalk_of_leads {path : Name} (hc : m.Counted refs) (hroot : m.root ∈ refs)
    (hleads : m.Leads m.root (components path) d) :
    ∃ m' parent, m.pathWalk path = some (m', .ok (d, parent)) ∧ Recounted m m' ∧
      m'.Counted (d ::ₘ parent ::ₘ refs) ∧ m'.Below (components path) d parent := by
  obtain ⟨D, hD⟩ := hc.live hroot
  have hclone := Recounted.clone m m.root
  obtain ⟨m', parent, hwalk, hsame, hc', hbelow⟩ :=
    walkLoop_of_leads (hc.clone hD) (hleads.of_shape hclone.shape)
  exact ⟨m', parent, hwalk, hclone.trans hsame, hc', hbelow⟩

/-- **A path that was walked is walked again**: when what is beside its entry is dropped, the next
walk comes to the same two entries, and the states differ in their counts alone. -/
theorem pathWalk_again {path : Name} {m₁ : Mount} {parent : ℕ} (hc : m.Counted refs) (hroot : m.root ∈ refs)
    (hw : m.pathWalk path = some (m₁, .ok (d, parent))) :
    ∃ m₂ m₃, m₁.release parent = some m₂ ∧ Recounted m₁ m₂ ∧ m₂.Counted (d ::ₘ refs) ∧
      m₂.pathWalk path = some (m₃, .ok (d, parent)) ∧ Recounted m₁ m₃ ∧
      m₃.Counted (d ::ₘ parent ::ₘ d ::ₘ refs) ∧ m₃.Below (components path) d parent := by
  obtain ⟨hr₁, hc₁, hleads, hbelow⟩ := pathWalk_spec hc hroot hw
  rw [Multiset.cons_swap] at hc₁
  obtain ⟨m₂, hrelease, hsame, hc₂⟩ :=
    hc₁.release_of_shared (hbelow.shared (Multiset.mem_cons_self d refs))
  have hr₂ : m₂.root = m.root := hsame.root.trans hr₁
  have hroot₂ : m₂.root ∈ d ::ₘ refs := by
    rw [hr₂]
    exact Multiset.mem_cons_of_mem hroot
  have hleads₂ : m₂.Leads m₂.root (components path) d := by
    rw [hr₂]
    exact hleads.of_shape hsame.shape
  obtain ⟨m₃, parent', hwalk, hsame', hc₃, hbelow'⟩ := pathWalk_of_leads hc₂ hroot₂ hleads₂
  have hsame₃ := hsame.trans hsame'
  obtain rfl := (hbelow.of_shape hsame₃.shape).unique hbelow'
  exact ⟨m₂, m₃, hrelease, hsame, hc₂, hwalk, hsame₃, hc₃, hbelow'⟩

/-- **A path to an entry that is still held stays.** -/
theorem Leads.walked {names : List Name} (hleads : m.Leads x names y) (hc : m.Counted refs)
    (hw : Walked m m') {refs' : Multiset ℕ} (hc' : m'.Counted refs') (hy : y ∈ refs') :
    m'.Leads x names y := by
  induction names generalizing x with
  | nil =>
    obtain ⟨rfl, -⟩ := hleads
    exact ⟨rfl, hc'.live hy⟩
  | cons name names ih =>
    obtain ⟨D, c, hD, hchild, hrest⟩ := hleads
    have hrest' := ih hrest
    -- the next entry holds this one
    obtain ⟨C', hC'⟩ := hrest'.start
    obtain ⟨C, hC⟩ := hrest.start
    obtain ⟨C₀, hC₀, -, hsame, -⟩ := hw.old c (hc.bounded hC) C' hC'
    rw [hC] at hC₀
    cases hC₀
    have hparent : C'.parent = some x := hsame.trans ((hc.children x D name c hD hchild).2 C hC)
    obtain ⟨-, D', hD'⟩ := hc'.parent hC' hparent
    exact ⟨D', c, hD', hw.kept x (hc.bounded hD) c (hc.bounded hC) D D' C' name hD hchild hD' hC',
      hrest'⟩

theorem Leads.release {names : List Name} (hleads : m.Leads x names y)
    (hc : m.Counted (e ::ₘ refs)) (h : m.release e = some m') (hy : y ∈ refs) :
    m'.Leads x names y := hleads.walked hc (walked_release h) (hc.release h) hy

/-! ## Operations on paths -/

theorem finish_result {α : Type} {r r' : Except Errno α} (h : m.finish d e r = some (m', r')) :
    r' = r := by
  obtain ⟨m₁, -, h⟩ := Option.bind_eq_some_iff.mp h
  obtain ⟨m₂, -, h⟩ := Option.bind_eq_some_iff.mp h
  cases h
  rfl

/-- The end of an operation that holds two entries. -/
theorem finish_spec {α : Type} {r r' : Except Errno α} (hc : m.Counted (d ::ₘ e ::ₘ refs))
    (h : m.finish d e r = some (m', r')) : m'.root = m.root ∧ m'.Counted refs := by
  obtain ⟨m₁, h₁, h⟩ := Option.bind_eq_some_iff.mp h
  obtain ⟨m₂, h₂, h⟩ := Option.bind_eq_some_iff.mp h
  cases h
  exact ⟨(releaseLoop_spec h₂).2.2.1.trans (releaseLoop_spec h₁).2.2.1, (hc.release h₁).release h₂⟩

/-- **An opened path** is in memory, up to an entry that is held. -/
theorem openPath_spec {path : Name} {flags : UInt8} {r : Except Errno ℕ} (hc : m.Counted refs)
    (hroot : m.root ∈ refs) (h : m.openPath path flags = some (m', r)) : m'.root = m.root ∧
      match r with
      | .ok d => m'.Counted (d ::ₘ refs) ∧ m'.Leads m'.root (components path) d
      | .error _ => m'.Counted refs := by
  cases openPath_goes h with
  | noWalk walk => exact pathWalk_spec hc hroot walk
  | negative walk rel rel' =>
    obtain ⟨hr, hc₁, -⟩ := pathWalk_spec hc hroot walk
    rw [Multiset.cons_swap] at hc₁
    exact ⟨((releaseLoop_spec rel').2.2.1.trans (releaseLoop_spec rel).2.2.1).trans hr,
      (hc₁.release rel).release rel'⟩
  | opened walk rel =>
    obtain ⟨hr, hc₁, hleads, -⟩ := pathWalk_spec hc hroot walk
    rw [Multiset.cons_swap] at hc₁
    have hr₂ := (releaseLoop_spec rel).2.2.1
    have hl := hleads.release hc₁ rel (Multiset.mem_cons_self _ _)
    exact ⟨hr₂.trans hr, hc₁.release rel, by rw [hr₂, hr]; exact hl⟩

/-- A change that is not about references. -/
theorem Counted.modify (hc : m.Counted refs) {f : Dentry → Dentry}
    (hf : ∀ D, (f D).parent = D.parent ∧ (f D).strong = D.strong ∧ (f D).children = D.children) :
    (m.modify d f).Counted refs where
  heap := by
    rw [heap_modify fun D => ⟨(hf D).1, (hf D).2.1⟩]
    exact hc.heap
  children := fun e E' name c hE' hchild => by
    have hold : ∀ x X', (m.modify d f).dentries x = some X' → ∃ X, m.dentries x = some X ∧
        X'.parent = X.parent ∧ X'.children = X.children := by
      intro x X' hX'
      by_cases hx : x = d
      · subst hx
        simp only [Mount.modify, Function.update_self] at hX'
        obtain ⟨X, hX, rfl⟩ := Option.map_eq_some_iff.mp hX'
        exact ⟨X, hX, (hf X).1, (hf X).2.2⟩
      · simp only [Mount.modify, Function.update_of_ne hx] at hX'
        exact ⟨X', hX', rfl, rfl⟩
    obtain ⟨E, hE, -, hchildren⟩ := hold e E' hE'
    rw [hchildren] at hchild
    obtain ⟨hlt, hparent⟩ := hc.children e E name c hE hchild
    refine ⟨hlt, fun C' hC' => ?_⟩
    obtain ⟨C, hC, heq, -⟩ := hold c C' hC'
    rw [heq]
    exact hparent C hC

theorem Counted.dropInode (hc : m.Counted refs) {c : CachedInode}
    (h : m.dropInode c = some m') : m'.root = m.root ∧ m'.Counted refs := by
  obtain ⟨fs, -, heq⟩ := Option.map_eq_some_iff.mp h
  cases heq
  exact ⟨rfl, hc.heap, hc.children⟩

theorem createIn_spec {parent : ℕ} {c : CachedInode} {mode : UInt16} (hc : m.Counted refs)
    (h : m.createIn parent c d mode = some m') : m'.root = m.root ∧ m'.Counted refs := by
  obtain ⟨n, _, volume, attrs, _, ino, _, -, -, hmade⟩ := createIn_goes h
  have hc₁ : Mount.Counted { m with volume := volume, attrs := attrs } refs := ⟨hc.heap, hc.children⟩
  have hc₂ := @Counted.modify _ refs d (hc₁.setExt4 parent ino) (madeEntry n mode)
    fun _ => ⟨rfl, rfl, rfl⟩
  rcases hmade with rfl | ⟨old, hdrop⟩
  · exact ⟨rfl, hc₂⟩
  · exact hc₂.dropInode hdrop

theorem create_spec {path : Name} {mode : UInt16} {r : Except Errno Unit} (hc : m.Counted refs)
    (hroot : m.root ∈ refs) (h : m.create path mode = some (m', r)) :
    m'.root = m.root ∧ m'.Counted refs := by
  cases create_goes h with
  | noWalk walk => exact pathWalk_spec hc hroot walk
  | refused walk drop =>
    obtain ⟨hr₁, hc₁, -⟩ := pathWalk_spec hc hroot walk
    rw [Multiset.cons_swap] at hc₁
    obtain ⟨hr, hc'⟩ := finish_spec hc₁ drop
    exact ⟨hr.trans hr₁, hc'⟩
  | created walk _ make drop =>
    obtain ⟨hr₁, hc₁, -⟩ := pathWalk_spec hc hroot walk
    rw [Multiset.cons_swap] at hc₁
    obtain ⟨hr₂, hc₂⟩ := createIn_spec hc₁ make
    obtain ⟨hr, hc'⟩ := finish_spec hc₂ drop
    exact ⟨(hr.trans hr₂).trans hr₁, hc'⟩

/-- Removing the directory entry leaves the entries in memory as they are. -/
theorem unlinkIn_spec {parent : ℕ} {c : CachedInode} {r : Except Errno Unit} (hc : m.Counted refs)
    (h : m.unlinkIn parent c d = some (m', r)) :
    m'.shape = m.shape ∧ m'.root = m.root ∧ m'.Counted refs := by
  obtain rfl | ⟨found, ino, fs, -, rfl⟩ := unlinkIn_goes h
  · exact ⟨rfl, rfl, hc⟩
  · have hset : (m.setFs fs).Counted refs := ⟨hc.heap, hc.children⟩
    exact ⟨shape_setExt4 (m.setFs fs) parent ino, rfl, hset.setExt4 parent ino⟩

theorem unlinkIn_walked {parent : ℕ} {c : CachedInode} {r : Except Errno Unit}
    (h : m.unlinkIn parent c d = some (m', r)) : Walked m m' := by
  obtain rfl | ⟨found, ino, fs, -, rfl⟩ := unlinkIn_goes h
  · exact .refl _
  · exact walked_of_shape (shape_setExt4 (m.setFs fs) parent ino) rfl rfl

theorem unlinkOld_spec {src srcParent : ℕ} {r : Except Errno Unit} (hc : m.Counted refs)
    (h : m.unlinkOld src srcParent = some (m', r)) :
    m'.shape = m.shape ∧ m'.root = m.root ∧ m'.Counted refs := by
  obtain rfl | ⟨c, -, hunlink⟩ := unlinkOld_goes h
  · exact ⟨rfl, rfl, hc⟩
  · exact unlinkIn_spec hc hunlink

theorem unlink_counted {path : Name} {r : Except Errno Unit} (hc : m.Counted refs)
    (hroot : m.root ∈ refs) (h : m.unlink path = some (m', r)) :
    m'.root = m.root ∧ m'.Counted refs := by
  cases unlink_goes h with
  | noWalk walk => exact pathWalk_spec hc hroot walk
  | refused walk drop =>
    obtain ⟨hr₁, hc₁, -⟩ := pathWalk_spec hc hroot walk
    rw [Multiset.cons_swap] at hc₁
    obtain ⟨hr, hc'⟩ := finish_spec hc₁ drop
    exact ⟨hr.trans hr₁, hc'⟩
  | ran walk _ _ unlink drop =>
    obtain ⟨hr₁, hc₁, -⟩ := pathWalk_spec hc hroot walk
    obtain ⟨-, hr₂, hc₂⟩ := unlinkIn_spec hc₁ unlink
    obtain ⟨hr, hc'⟩ := finish_spec hc₂ drop
    exact ⟨(hr.trans hr₂).trans hr₁, hc'⟩

theorem renameIn_spec {src srcParent dst dstParent : ℕ} {r : Except Errno Unit}
    (hc : m.Counted refs) (h : RenamingIn m src srcParent dst dstParent m' r) :
    m'.root = m.root ∧ m'.Counted refs := by
  cases h with
  | noParent => exact ⟨rfl, hc⟩
  | kept unlink => exact (unlinkOld_spec hc unlink).2
  | made _ unlink _ make =>
    obtain ⟨-, hr₁, hc₁⟩ := unlinkOld_spec hc unlink
    obtain ⟨hr₂, hc₂⟩ := createIn_spec hc₁ make
    exact ⟨hr₂.trans hr₁, hc₂⟩

theorem rename_spec {oldPath newPath : Name} {r : Except Errno Unit} (hc : m.Counted refs)
    (hroot : m.root ∈ refs) (h : m.rename oldPath newPath = some (m', r)) :
    m'.root = m.root ∧ m'.Counted refs := by
  cases rename_goes h with
  | noSource walk => exact pathWalk_spec hc hroot walk
  | negative walk _ drop =>
    obtain ⟨hr₁, hc₁, -⟩ := pathWalk_spec hc hroot walk
    rw [Multiset.cons_swap] at hc₁
    obtain ⟨hr, hc'⟩ := finish_spec hc₁ drop
    exact ⟨hr.trans hr₁, hc'⟩
  | noTarget walk walk' drop =>
    obtain ⟨hr₁, hc₁, -⟩ := pathWalk_spec hc hroot walk
    rw [Multiset.cons_swap] at hc₁
    obtain ⟨hr₂, hc₂⟩ := pathWalk_spec hc₁ (by rw [hr₁]; simp [hroot]) walk'
    obtain ⟨hr, hc'⟩ := finish_spec hc₂ drop
    exact ⟨(hr.trans hr₂).trans hr₁, hc'⟩
  | ran walk _ walk' run drop drop' =>
    obtain ⟨hr₁, hc₁, -⟩ := pathWalk_spec hc hroot walk
    rw [Multiset.cons_swap] at hc₁
    obtain ⟨hr₂, hc₂, -⟩ := pathWalk_spec hc₁ (by rw [hr₁]; simp [hroot]) walk'
    rw [Multiset.cons_swap] at hc₂
    obtain ⟨hr₃, hc₃⟩ := renameIn_spec hc₂ run
    obtain ⟨hr₄, hc₄⟩ := finish_spec hc₃ drop
    obtain ⟨hr, hc'⟩ := finish_spec hc₄ drop'
    exact ⟨(((hr.trans hr₄).trans hr₃).trans hr₂).trans hr₁, hc'⟩

theorem readLink_spec {r : Except Errno Name} (hc : m.Counted refs)
    (h : m.readLink d = some (m', r)) : m'.root = m.root ∧ m'.Counted refs := by
  obtain rfl | ⟨c, bs, ino, -, -, rfl⟩ := readLink_goes h
  · exact ⟨rfl, hc⟩
  · exact ⟨rfl, (hc.setExt4 d ino).modify fun _ => ⟨rfl, rfl, rfl⟩⟩

theorem readlink_spec {path : Name} {r : Except Errno Name} (hc : m.Counted refs)
    (hroot : m.root ∈ refs) (h : m.readlink path = some (m', r)) :
    m'.root = m.root ∧ m'.Counted refs := by
  cases readlink_goes h with
  | noName => exact ⟨rfl, hc⟩
  | noWalk _ walk => exact pathWalk_spec hc hroot walk
  | noTarget _ walk rel step rel' =>
    obtain ⟨hr₁, hc₁, -⟩ := pathWalk_spec hc hroot walk
    rw [Multiset.cons_swap] at hc₁
    obtain ⟨hw₃, hc₃⟩ := walkStep_spec (hc₁.release rel) step
    have hr₃ := (hw₃.root.trans (releaseLoop_spec rel).2.2.1).trans hr₁
    exact ⟨(releaseLoop_spec rel').2.2.1.trans hr₃, Counted.release hc₃ rel'⟩
  | ran _ walk rel step link drop =>
    obtain ⟨hr₁, hc₁, -⟩ := pathWalk_spec hc hroot walk
    rw [Multiset.cons_swap] at hc₁
    obtain ⟨hw₃, hstepped⟩ := walkStep_spec (hc₁.release rel) step
    have hr₃ := (hw₃.root.trans (releaseLoop_spec rel).2.2.1).trans hr₁
    obtain ⟨hr₄, hc₄⟩ := readLink_spec hstepped.counted link
    obtain ⟨hr, hc'⟩ := finish_spec hc₄ drop
    exact ⟨(hr.trans hr₄).trans hr₃, hc'⟩

end Mount

end QuackOS.Fs
