import QuackOS.Cap.CSpace
import QuackOS.Cap.Derive

/-!
# The capability calls of a process

`sys_cspace_mint`, `sys_cspace_derive`, `sys_cspace_move` and `sys_cspace_delete` of `native.rs`,
for the calling process.  The arguments are what the registers hold.

* `withCspaceMut_cases` — what an operation on one space does to all of them;
* `MoveSafe` — a move loses nothing, and one that fails changes nothing in the whole table;
* `moveSafe_iff` — this is so just where the source has nothing to move and no space is made for
  the process, or the destination is an empty slot or the source itself.
-/

namespace QuackOS.Cap

/-! ## The calls -/

/-- What a call on capabilities fails with. -/
inductive CapFailure
  | badType
  | cap (e : CapError)
  | derive (e : DeriveError)
  deriving DecidableEq, Repr

/-- The derivation table and the capability spaces. -/
structure CapTables where
  table : DeriveTable
  spaces : CSpaceTable

/-- `cap_type_from_u8`. -/
def capTypeFromU8 (v : BitVec 8) : Option CapType :=
  match v.toNat with
  | 0 => some .untyped
  | 1 => some .endpoint
  | 2 => some .thread
  | 3 => some .pageTable
  | 4 => some .frame
  | 5 => some .notification
  | 6 => some .cnode
  | _ => none

/-- The last part of both: the new capability goes into the caller's space. -/
def insertNew (table : DeriveTable) (spaces : CSpaceTable) (pid : ProcessId) (cap : Capability) :
    Except CapFailure CPtr × CapTables :=
  match insertCap spaces pid cap with
  | (.ok cptr, spaces) => (.ok cptr, ⟨table, spaces⟩)
  | (.error e, spaces) => (.error (.cap e), ⟨table, spaces⟩)

/-- `sys_cspace_mint`. -/
def sysCspaceMint (s : CapTables) (pid : ProcessId) (x0 x1 x2 : BitVec 64) :
    Except CapFailure CPtr × CapTables :=
  match capTypeFromU8 (x1.setWidth 8) with
  | none => (.error .badType, s)
  | some capType =>
    match mintCap s.table x0.toNat capType ⟨x2.setWidth 16⟩ pid with
    | (.error e, table) => (.error (.cap e), { s with table })
    | (.ok cap, table) => insertNew table s.spaces pid cap

/-- `sys_cspace_derive`. -/
def sysCspaceDerive (s : CapTables) (pid : ProcessId) (x0 x1 : BitVec 64) :
    Except CapFailure CPtr × CapTables :=
  match lookupCap s.spaces pid x0.toNat with
  | .error e => (.error (.cap e), s)
  | .ok parent =>
    match deriveCap s.table parent ⟨x1.setWidth 16⟩ pid with
    | (.error e, table) => (.error (.derive e), { s with table })
    | (.ok cap, table) => insertNew table s.spaces pid cap

/-- `sys_cspace_move`. -/
def sysCspaceMove (t : CSpaceTable) (pid : ProcessId) (src dest : CPtr) :
    Except CapError Unit × CSpaceTable :=
  match removeCap t pid src with
  | (.error e, t) => (.error e, t)
  | (.ok cap, t) => insertCapAt t pid dest cap

/-- `sys_cspace_delete`. -/
def sysCspaceDelete (t : CSpaceTable) (pid : ProcessId) (cptr : CPtr) :
    Except CapError Unit × CSpaceTable :=
  match removeCap t pid cptr with
  | (.error e, t) => (.error e, t)
  | (.ok _, t) => (.ok (), t)

/-! ## One operation on a space -/

open CSpaceTable

section WithCspaceMut

variable {R : Type} {t : CSpaceTable} {pid : ProcessId}

/-- The space of a process that has one. -/
theorem modify_of_get (h : t.get pid ≠ none) (f : CNode → Except CapError R × CNode) :
    (t.modify pid f).1 = (f (t.node pid)).1 ∧ (t.modify pid f).2.get pid ≠ none := by
  cases hpos : Slots.position maxCspaces t.spaces fun cs => cs.pid == pid with
  | none => exact absurd (Slots.lookup_eq_none.mpr hpos) h
  | some x =>
    obtain ⟨cs, hcs, hpid⟩ := (Option.any_eq_true _ _).mp (Slots.position_eq_some.mp hpos).1
    have hget : t.get pid = some cs := by
      rw [CSpaceTable.get, Slots.lookup_of_position hpos, hcs]
    have hmodify : t.modify pid f = ((f cs.root).1,
        { spaces := Function.update t.spaces x (some { cs with root := (f cs.root).2 }) }) := by
      simp only [CSpaceTable.modify, hpos, hcs]
    rw [hmodify, node_of_get hget]
    refine ⟨rfl, ?_⟩
    set cs' : CSpace := { cs with root := (f cs.root).2 }
    have hget' : CSpaceTable.get { spaces := Function.update t.spaces x (some cs') } pid =
        some cs' := Slots.lookup_update_self hpos hpid
    rw [hget']
    exact Option.some_ne_none _

/-- An operation that fails on the node and leaves it leaves all of them. -/
theorem modify_of_error (h : t.get pid ≠ none) {f : CNode → Except CapError R × CNode}
    {e : CapError} (hf : f (t.node pid) = (.error e, t.node pid)) :
    t.modify pid f = (.error e, t) := by
  cases hpos : Slots.position maxCspaces t.spaces fun cs => cs.pid == pid with
  | none => exact absurd (Slots.lookup_eq_none.mpr hpos) h
  | some x =>
    obtain ⟨cs, hcs, -⟩ := (Option.any_eq_true _ _).mp (Slots.position_eq_some.mp hpos).1
    have hget : t.get pid = some cs := by
      rw [CSpaceTable.get, Slots.lookup_of_position hpos, hcs]
    rw [node_of_get hget] at hf
    simp only [CSpaceTable.modify, hpos, hcs, hf]
    rw [← hcs, Function.update_eq_self]

/-- An operation on the node of a process: it fails for want of a space, or it runs on the node,
which is a new one if there was none. -/
theorem withCspaceMut_cases (t : CSpaceTable) (pid : ProcessId)
    (f : CNode → Except CapError R × CNode) :
    (t.get pid = none ∧ (∀ x < maxCspaces, t.spaces x ≠ none) ∧
        withCspaceMut t pid f = (.error .cspaceFull, t)) ∨
      ((t.get pid = none → ∃ x < maxCspaces, t.spaces x = none) ∧
        (withCspaceMut t pid f).1 = (f (t.node pid)).1 ∧
        (withCspaceMut t pid f).2.node pid = (f (t.node pid)).2 ∧
        (withCspaceMut t pid f).2.get pid ≠ none) := by
  unfold withCspaceMut
  cases hget : t.get pid with
  | some cs =>
    have hsome : t.get pid ≠ none := by rw [hget]; exact Option.some_ne_none cs
    obtain ⟨hresult, hkept⟩ := modify_of_get hsome f
    exact Or.inr ⟨(fun h => nomatch h), hresult, node_modify_self hsome f, hkept⟩
  | none =>
    dsimp only
    cases hfree : Slots.firstFree maxCspaces t.spaces with
    | none =>
      left
      refine ⟨rfl, Slots.firstFree_eq_none.mp hfree, ?_⟩
      simp only [CSpaceTable.insert, hfree]
    | some x =>
      right
      have hins : t.insert (CSpace.new pid) =
          (.ok (), { spaces := Function.update t.spaces x (some (CSpace.new pid)) }) := by
        simp only [CSpaceTable.insert, hfree]
      have hsome : CSpaceTable.get
          { spaces := Function.update t.spaces x (some (CSpace.new pid)) } pid ≠ none := by
        rw [CSpaceTable.get, Slots.lookup_insert hget hfree (by simp [CSpace.new])]
        exact Option.some_ne_none _
      rw [hins, ← node_insert hget hins pid]
      obtain ⟨hresult, hkept⟩ := modify_of_get hsome f
      obtain ⟨hslot, hx, -⟩ := Slots.firstFree_eq_some.mp hfree
      exact ⟨fun _ => ⟨x, hx, hslot⟩, hresult, node_modify_self hsome f, hkept⟩

/-- The space of a process that has one is the only slot of the table an operation writes. -/
theorem spaces_withCspaceMut_of_ne (h : t.get pid ≠ none) {x : ℕ}
    (hx : ∀ cs, t.spaces x = some cs → cs.pid ≠ pid) (f : CNode → Except CapError R × CNode) :
    (withCspaceMut t pid f).2.spaces x = t.spaces x := by
  obtain ⟨cs, hget⟩ := Option.ne_none_iff_exists'.mp h
  simp only [withCspaceMut, hget]
  cases hpos : Slots.position maxCspaces t.spaces fun cs => cs.pid == pid with
  | none => exact absurd (Slots.lookup_eq_none.mpr hpos) h
  | some y =>
    obtain ⟨cs', hcs, hpid⟩ := (Option.any_eq_true _ _).mp (Slots.position_eq_some.mp hpos).1
    have hne : x ≠ y := by
      rintro rfl
      exact hx cs' hcs (by simpa using hpid)
    simp only [CSpaceTable.modify, hpos, hcs, Function.update_of_ne hne]

end WithCspaceMut

/-! ## Moving a capability -/

/-- What a move is to do to the slots. -/
structure Moved (t t' : CSpaceTable) (pid : ProcessId) (src dest : CPtr) : Prop where
  /-- The destination holds what the source held. -/
  moved : ∃ k, t.Holds pid src k ∧ t'.Holds pid dest k
  left : src ≠ dest → ∀ k, ¬ t'.Holds pid src k
  others : ∀ i, i ≠ src → i ≠ dest → ∀ k, t'.Holds pid i k ↔ t.Holds pid i k
  /-- Nothing has disappeared. -/
  kept : Slots.contents cslotCount (t.node pid).slots ≤ Slots.contents cslotCount (t'.node pid).slots

/-- **A move never loses a capability**, and one that fails changes nothing. -/
structure MoveSafe (t : CSpaceTable) (pid : ProcessId) (src dest : CPtr) : Prop where
  /-- The table is as it was, with no space more in it. -/
  error : ∀ e, (sysCspaceMove t pid src dest).1 = .error e → (sysCspaceMove t pid src dest).2 = t
  ok : (sysCspaceMove t pid src dest).1 = .ok () →
    Moved t (sysCspaceMove t pid src dest).2 pid src dest
  /-- No slot of the table but the caller's is touched. -/
  frame : ∀ x, (∀ cs, t.spaces x = some cs → cs.pid ≠ pid) →
    (sysCspaceMove t pid src dest).2.spaces x = t.spaces x

/-- `with_cspace_mut` makes a space: the process has none, and one more has room. -/
def MakesSpace (t : CSpaceTable) (pid : ProcessId) : Prop :=
  t.get pid = none ∧ ∃ x < maxCspaces, t.spaces x = none

/-- There is nothing to move and no space is made, or there is, and the destination is an empty
slot or the source itself. -/
def MoveFits (t : CSpaceTable) (pid : ProcessId) (src dest : CPtr) : Prop :=
  (∀ k, ¬ t.Holds pid src k) ∧ ¬ MakesSpace t pid ∨
    (∃ k, t.Holds pid src k) ∧ dest < cslotCount ∧ (dest = src ∨ ∀ k, ¬ t.Holds pid dest k)

section Move

variable {t : CSpaceTable} {pid : ProcessId} {src dest : CPtr} {k : Capability}

theorem holds_iff {i : CPtr} : t.Holds pid i k ↔ i < cslotCount ∧ (t.node pid).slots i = some k :=
  Iff.rfl

theorem remove_of_empty (h : ∀ k, ¬ t.Holds pid src k) :
    ∃ e, (t.node pid).remove src = (.error e, t.node pid) := by
  unfold CNode.remove CNode.lookup
  by_cases hlt : src < cslotCount
  · have hnone : (t.node pid).slots src = none := by
      cases hs : (t.node pid).slots src with
      | none => rfl
      | some k => exact absurd ⟨hlt, hs⟩ (h k)
    have hsame : Function.update (t.node pid).slots src none = (t.node pid).slots := by
      rw [← hnone, Function.update_eq_self]
    simp only [hlt, if_true, hnone, hsame]
    exact ⟨_, rfl⟩
  · simp only [hlt, if_false]
    exact ⟨_, rfl⟩

/-- Removing from a slot that holds nothing. -/
theorem removeCap_of_empty (h : ∀ k, ¬ t.Holds pid src k) :
    (∃ e, (removeCap t pid src).1 = .error e) ∧ (removeCap t pid src).2.node pid = t.node pid := by
  obtain ⟨e, hremove⟩ := remove_of_empty h
  rcases withCspaceMut_cases t pid fun n => n.remove src with
    ⟨-, -, heq⟩ | ⟨-, hresult, hnode, -⟩
  · rw [removeCap, heq]
    exact ⟨⟨_, rfl⟩, rfl⟩
  · rw [removeCap, hresult, hnode, hremove]
    exact ⟨⟨e, rfl⟩, rfl⟩

/-- If no space is made, such a removal leaves the whole table. -/
theorem removeCap_of_empty_eq (h : ∀ k, ¬ t.Holds pid src k) (hspace : ¬ MakesSpace t pid) :
    ∃ e, removeCap t pid src = (.error e, t) := by
  cases hget : t.get pid with
  | some cs =>
    have hsome : t.get pid ≠ none := by rw [hget]; exact Option.some_ne_none cs
    obtain ⟨e, hremove⟩ := remove_of_empty h
    refine ⟨e, ?_⟩
    rw [removeCap, withCspaceMut, hget]
    exact modify_of_error hsome hremove
  | none =>
    rcases withCspaceMut_cases t pid fun n => n.remove src with ⟨-, -, heq⟩ | ⟨hfree, -⟩
    · exact ⟨_, heq⟩
    · exact absurd ⟨hget, hfree hget⟩ hspace

/-- Removing the capability that a slot holds. -/
theorem removeCap_of_holds (h : t.Holds pid src k) :
    (removeCap t pid src).1 = .ok k ∧
      (removeCap t pid src).2.node pid = ⟨Function.update (t.node pid).slots src none⟩ ∧
      (removeCap t pid src).2.get pid ≠ none := by
  obtain ⟨hlt, hslot⟩ := h
  rcases withCspaceMut_cases t pid fun n => n.remove src with
    ⟨hnone, -⟩ | ⟨-, hresult, hnode, hget⟩
  · rw [node_of_get_none hnone] at hslot
    cases hslot
  · refine ⟨?_, ?_, hget⟩
    · rw [removeCap, hresult, CNode.remove, CNode.lookup, if_pos hlt, hslot]
    · rw [removeCap, hnode, CNode.remove, if_pos hlt]

/-- **How a move goes that has something to move.** -/
theorem sysCspaceMove_of_holds (h : t.Holds pid src k) :
    (dest < cslotCount ∧ (sysCspaceMove t pid src dest).1 = .ok () ∧
      (sysCspaceMove t pid src dest).2.node pid =
        ⟨Function.update (Function.update (t.node pid).slots src none) dest (some k)⟩) ∨
    (¬ dest < cslotCount ∧ (sysCspaceMove t pid src dest).1 = .error .invalidCPtr ∧
      (sysCspaceMove t pid src dest).2.node pid =
        ⟨Function.update (t.node pid).slots src none⟩) := by
  obtain ⟨hok, hnode, hget⟩ := removeCap_of_holds h
  unfold sysCspaceMove
  rcases hr : removeCap t pid src with ⟨r, t'⟩
  rw [hr] at hok hnode hget
  dsimp only at hok hnode hget
  subst hok
  dsimp only
  rcases withCspaceMut_cases t' pid fun n => n.insertAt dest k with
    ⟨hnone, -⟩ | ⟨-, hresult, hnode', -⟩
  · exact absurd hnone hget
  · rw [insertCapAt, hresult, hnode', hnode]
    unfold CNode.insertAt
    by_cases hlt : dest < cslotCount
    · exact Or.inl ⟨hlt, by rw [if_pos hlt], by rw [if_pos hlt]⟩
    · exact Or.inr ⟨hlt, by rw [if_neg hlt], by rw [if_neg hlt]⟩

theorem sysCspaceMove_of_empty (h : ∀ k, ¬ t.Holds pid src k) :
    (∃ e, (sysCspaceMove t pid src dest).1 = .error e) ∧
      (sysCspaceMove t pid src dest).2.node pid = t.node pid := by
  obtain ⟨⟨e, herror⟩, hnode⟩ := removeCap_of_empty h
  unfold sysCspaceMove
  rcases hr : removeCap t pid src with ⟨r, t'⟩
  rw [hr] at herror hnode
  dsimp only at herror
  subst herror
  exact ⟨⟨e, rfl⟩, hnode⟩

/-- A failing move of a process without a space leaves it with one. -/
theorem sysCspaceMove_of_makesSpace (h : MakesSpace t pid) :
    (∃ e, (sysCspaceMove t pid src dest).1 = .error e) ∧ (sysCspaceMove t pid src dest).2 ≠ t := by
  obtain ⟨hnone, x, hx, hfree⟩ := h
  have hempty : ∀ k, ¬ t.Holds pid src k := by
    rintro k ⟨-, hk⟩
    rw [node_of_get_none hnone] at hk
    cases hk
  refine ⟨(sysCspaceMove_of_empty hempty).1, fun hsame => ?_⟩
  obtain ⟨⟨e, herror⟩, -⟩ := removeCap_of_empty hempty
  rcases withCspaceMut_cases t pid fun n => n.remove src with ⟨-, hfull, -⟩ | ⟨-, -, -, hget⟩
  · exact hfull x hx hfree
  · rw [← removeCap] at hget
    unfold sysCspaceMove at hsame
    rcases hr : removeCap t pid src with ⟨r, t'⟩
    rw [hr] at herror hget hsame
    dsimp only at herror hget
    subst herror
    exact hget (by rw [show t' = t from hsame, hnone])

/-- A move that has something to move leaves the other slots of the table alone. -/
theorem spaces_sysCspaceMove_of_ne (h : t.Holds pid src k) {x : ℕ}
    (hx : ∀ cs, t.spaces x = some cs → cs.pid ≠ pid) :
    (sysCspaceMove t pid src dest).2.spaces x = t.spaces x := by
  have hsome : t.get pid ≠ none := by
    intro hnone
    have hslot := h.2
    rw [node_of_get_none hnone] at hslot
    cases hslot
  have hremove := spaces_withCspaceMut_of_ne hsome hx fun n => n.remove src
  obtain ⟨hok, -, hget⟩ := removeCap_of_holds h
  unfold sysCspaceMove
  rcases hr : removeCap t pid src with ⟨r, t'⟩
  rw [← removeCap, hr] at hremove
  rw [hr] at hok hget
  dsimp only at hok hget hremove
  subst hok
  rw [← hremove]
  exact spaces_withCspaceMut_of_ne hget (fun cs hcs => hx cs (hremove ▸ hcs)) _

/-- A move to an empty slot, or to the same one. -/
theorem moved_of_fits (h : t.Holds pid src k) (hlt : dest < cslotCount)
    (hdest : dest = src ∨ ∀ k, ¬ t.Holds pid dest k) {t' : CSpaceTable}
    (hnode : t'.node pid =
      ⟨Function.update (Function.update (t.node pid).slots src none) dest (some k)⟩) :
    Moved t t' pid src dest where
  moved := ⟨k, h, hlt, by rw [hnode]; exact Function.update_self ..⟩
  left hne k' hk' := by
    have hslot := hk'.2
    rw [hnode] at hslot
    simp only [Function.update_of_ne hne, Function.update_self] at hslot
    cases hslot
  others i hsrc hdest k' := by
    rw [holds_iff, holds_iff, hnode]
    simp only [Function.update_of_ne hdest, Function.update_of_ne hsrc]
  kept := by
    rw [hnode, Slots.contents_remove h.1 h.2]
    rcases hdest with rfl | hempty
    · rw [Function.update_idem, Slots.contents_update_some h.1]
    · have hne : dest ≠ src := by
        rintro rfl
        exact hempty k h
      have hnone : Function.update (t.node pid).slots src none dest = none := by
        rw [Function.update_of_ne hne]
        cases hs : (t.node pid).slots dest with
        | none => rfl
        | some d => exact absurd ⟨hlt, hs⟩ (hempty d)
      rw [Slots.contents_insert hlt hnone]

/-- **A move is safe just where there is nothing to move and no space is made, or the destination
is an empty slot or the source itself.** -/
theorem moveSafe_iff (t : CSpaceTable) (pid : ProcessId) (src dest : CPtr) :
    MoveSafe t pid src dest ↔ MoveFits t pid src dest := by
  by_cases hempty : ∀ k, ¬ t.Holds pid src k
  · have hfits : MoveFits t pid src dest ↔ ¬ MakesSpace t pid :=
      ⟨fun h => h.elim (·.2) fun h => absurd h.1 (not_exists.mpr hempty), fun h => Or.inl ⟨hempty, h⟩⟩
    rw [hfits]
    constructor
    · intro hsafe hspace
      obtain ⟨⟨e, herror⟩, hne⟩ := @sysCspaceMove_of_makesSpace t pid src dest hspace
      exact hne (hsafe.error e herror)
    · intro hspace
      obtain ⟨e, hremove⟩ := removeCap_of_empty_eq hempty hspace
      have hmove : sysCspaceMove t pid src dest = (.error e, t) := by
        simp only [sysCspaceMove, hremove]
      refine ⟨fun _ _ => by rw [hmove], fun hok => ?_, fun _ _ => by rw [hmove]⟩
      rw [hmove] at hok
      cases hok
  · obtain ⟨k, hk⟩ := not_forall_not.mp hempty
    rcases @sysCspaceMove_of_holds t pid src dest k hk with ⟨hlt, hok, hnode⟩ | ⟨hge, herror, hnode⟩
    · have hfits : MoveFits t pid src dest ↔ dest = src ∨ ∀ k, ¬ t.Holds pid dest k :=
        ⟨fun h => h.elim (fun h => absurd h.1 hempty) (·.2.2), fun h => Or.inr ⟨⟨k, hk⟩, hlt, h⟩⟩
      rw [hfits]
      constructor
      · intro hsafe
        by_contra hdest
        obtain ⟨hne, hsome⟩ := not_or.mp hdest
        obtain ⟨d, hd⟩ := not_forall_not.mp hsome
        -- the capability that was there is overwritten
        have hkept := Multiset.card_le_card (hsafe.ok hok).kept
        have hslot : Function.update (t.node pid).slots src none dest = some d := by
          rw [Function.update_of_ne hne]
          exact hd.2
        rw [hnode, Slots.contents_remove hk.1 hk.2, Slots.contents_remove hlt hslot,
          Slots.contents_update_some hlt] at hkept
        simp only [Multiset.card_cons] at hkept
        omega
      · intro hdest
        refine ⟨fun e he => ?_, fun _ => moved_of_fits hk hlt hdest hnode,
          fun _ => spaces_sysCspaceMove_of_ne hk⟩
        rw [hok] at he
        cases he
    · refine iff_of_false (fun hsafe => ?_) ?_
      · -- the capability is removed, and not put back
        have hsame := congrArg (fun t => (t.node pid).slots src) (hsafe.error _ herror)
        simp only [hnode, Function.update_self] at hsame
        rw [hk.2] at hsame
        cases hsame
      · rintro (⟨h, -⟩ | ⟨-, h, -⟩)
        · exact hempty h
        · exact hge h

end Move

/-- Process 1 with a capability in slot 0. -/
def oneCapability : CSpaceTable :=
  (insertCap .new 1 ⟨5, .endpoint, ⟨CapRights.call⟩, some 0⟩).2

/-- **A move out of range fails, and the capability is gone.** -/
theorem move_out_of_range_loses :
    (sysCspaceMove oneCapability 1 0 64).1 = .error .invalidCPtr ∧
      lookupCap oneCapability 1 0 = .ok ⟨5, .endpoint, ⟨CapRights.call⟩, some 0⟩ ∧
      lookupCap (sysCspaceMove oneCapability 1 0 64).2 1 0 = .error .emptySlot ∧
      ¬ MoveSafe oneCapability 1 0 64 := by
  have herror : (sysCspaceMove oneCapability 1 0 64).1 = .error .invalidCPtr := by decide
  have hbefore : lookupCap oneCapability 1 0 = .ok ⟨5, .endpoint, ⟨CapRights.call⟩, some 0⟩ := by
    decide
  have hafter : lookupCap (sysCspaceMove oneCapability 1 0 64).2 1 0 = .error .emptySlot := by
    decide
  refine ⟨herror, hbefore, hafter, fun hsafe => ?_⟩
  have hsame := congrArg (fun t => ((t.node 1).slots 0).isSome) (hsafe.error _ herror)
  have hdiffers : ((sysCspaceMove oneCapability 1 0 64).2.node 1).slots 0 = none ∧
      ((oneCapability.node 1).slots 0).isSome = true := by decide
  rw [hdiffers.1, hdiffers.2] at hsame
  cases hsame

end QuackOS.Cap
