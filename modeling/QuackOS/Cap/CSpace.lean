import QuackOS.Cap.Basic
import QuackOS.Lib.Slots

/-!
# Capability spaces

The model of `kernel/cap/cspace.rs`: a `CNode` is a table of 64 slots, a `CSpace` a `CNode`
with its owner, and the global `CSPACES` a table of 64 capability spaces.  The operations
return their result with the table they leave behind.

`Holds` is what the rest of the development needs to know about the tables, and each
operation has one lemma saying what it holds afterwards.
-/

namespace QuackOS.Cap

/-- `kernel::ipc::channel::ChannelId`. -/
abbrev ChannelId := Nat

/-- Number of capability slots per CNode. -/
def cslotCount : Nat := 64

/-- Maximum number of processes that can have a CSpace. -/
def maxCspaces : Nat := 64

/-- A capability pointer: an index into the root CNode. -/
abbrev CPtr := Nat

/-- A capability table.  The reserved `guard` field, which nothing reads, is left out. -/
structure CNode where
  slots : Nat → Option Capability

namespace CNode

/-- `CNode::new`. -/
def new : CNode := { slots := fun _ => none }

/-- `insert` into the first empty slot. -/
def insert (n : CNode) (cap : Capability) : Except CapError CPtr × CNode :=
  match Slots.firstFree cslotCount n.slots with
  | none => (.error .cnodeFull, n)
  | some i => (.ok i, { slots := Function.update n.slots i (some cap) })

/-- `insert_at`, which overwrites whatever the slot holds. -/
def insertAt (n : CNode) (cptr : CPtr) (cap : Capability) : Except CapError Unit × CNode :=
  if cptr < cslotCount then (.ok (), { slots := Function.update n.slots cptr (some cap) })
  else (.error .invalidCPtr, n)

/-- `lookup`. -/
def lookup (n : CNode) (cptr : CPtr) : Except CapError Capability :=
  if cptr < cslotCount then
    match n.slots cptr with
    | none => .error .emptySlot
    | some cap => .ok cap
  else .error .invalidCPtr

/-- `remove`. -/
def remove (n : CNode) (cptr : CPtr) : Except CapError Capability × CNode :=
  (n.lookup cptr,
    if cptr < cslotCount then { slots := Function.update n.slots cptr none } else n)

/-- `search`: the first slot for the object, whatever rights it carries. -/
def search (n : CNode) (objId : Nat) (capType : CapType) : Option Capability :=
  Slots.lookup cslotCount n.slots fun c => c.objId == objId && c.capType == capType

end CNode

/-- A process's capability space. -/
structure CSpace where
  pid : ProcessId
  root : CNode

/-- `CSpace::new`. -/
def CSpace.new (pid : ProcessId) : CSpace := { pid, root := CNode.new }

/-- The global table of capability spaces. -/
structure CSpaceTable where
  spaces : Nat → Option CSpace

namespace CSpaceTable

/-- `CSpaceTable::new`. -/
def new : CSpaceTable := { spaces := fun _ => none }

/-- `get`: the first space owned by `pid`. -/
def get (t : CSpaceTable) (pid : ProcessId) : Option CSpace :=
  Slots.lookup maxCspaces t.spaces fun cs => cs.pid == pid

/-- `insert` into the first empty slot. -/
def insert (t : CSpaceTable) (cs : CSpace) : Except CapError Unit × CSpaceTable :=
  match Slots.firstFree maxCspaces t.spaces with
  | none => (.error .cspaceFull, t)
  | some x => (.ok (), { spaces := Function.update t.spaces x (some cs) })

/-- Run `f` on the root node of the space `get_mut` finds. -/
def modify {R : Type} (t : CSpaceTable) (pid : ProcessId)
    (f : CNode → Except CapError R × CNode) : Except CapError R × CSpaceTable :=
  match Slots.position maxCspaces t.spaces fun cs => cs.pid == pid with
  | none => (.error .invalidProcess, t)
  | some x =>
      match t.spaces x with
      | none => (.error .invalidProcess, t)
      | some cs =>
          let (r, root) := f cs.root
          (r, { spaces := Function.update t.spaces x (some { cs with root }) })

end CSpaceTable

/-- `with_cspace_mut`: a missing space is created first, and that is not undone if `f`
fails. -/
def withCspaceMut {R : Type} (t : CSpaceTable) (pid : ProcessId)
    (f : CNode → Except CapError R × CNode) : Except CapError R × CSpaceTable :=
  match t.get pid with
  | some _ => t.modify pid f
  | none =>
      match t.insert (CSpace.new pid) with
      | (.error e, t) => (.error e, t)
      | (.ok (), t) => t.modify pid f

/-- `with_cspace`. -/
def withCspace {R : Type} (t : CSpaceTable) (pid : ProcessId)
    (f : CNode → Except CapError R) : Except CapError R :=
  match t.get pid with
  | none => .error .invalidProcess
  | some cs => f cs.root

/-- `insert_cap`. -/
def insertCap (t : CSpaceTable) (pid : ProcessId) (cap : Capability) :
    Except CapError CPtr × CSpaceTable :=
  withCspaceMut t pid fun n => n.insert cap

/-- `insert_cap_at`. -/
def insertCapAt (t : CSpaceTable) (pid : ProcessId) (cptr : CPtr) (cap : Capability) :
    Except CapError Unit × CSpaceTable :=
  withCspaceMut t pid fun n => n.insertAt cptr cap

/-- `remove_cap`. -/
def removeCap (t : CSpaceTable) (pid : ProcessId) (cptr : CPtr) :
    Except CapError Capability × CSpaceTable :=
  withCspaceMut t pid fun n => n.remove cptr

/-- `lookup_cap`. -/
def lookupCap (t : CSpaceTable) (pid : ProcessId) (cptr : CPtr) : Except CapError Capability :=
  withCspace t pid fun n => n.lookup cptr

/-- The capability `lookup_endpoint_rights` decides on: the first endpoint slot for the
channel. -/
def endpointCap (t : CSpaceTable) (pid : ProcessId) (channelId : ChannelId) :
    Except CapError Capability :=
  withCspace t pid fun n =>
    match n.search channelId .endpoint with
    | none => .error .emptySlot
    | some cap => .ok cap

/-- `lookup_endpoint_rights`. -/
def lookupEndpointRights (t : CSpaceTable) (pid : ProcessId) (channelId : ChannelId)
    (requiredRights : BitVec 16) : Except CapError Unit :=
  match endpointCap t pid channelId with
  | .error e => .error e
  | .ok cap => if cap.rights.contains requiredRights then .ok () else .error .rightsEscalation

/-- `lookup_send_right`. -/
def lookupSendRight (t : CSpaceTable) (pid : ProcessId) (channelId : ChannelId) :
    Except CapError Unit :=
  lookupEndpointRights t pid channelId CapRights.send

/-- `lookup_recv_right`. -/
def lookupRecvRight (t : CSpaceTable) (pid : ProcessId) (channelId : ChannelId) :
    Except CapError Unit :=
  lookupEndpointRights t pid channelId CapRights.recv

/-- `lookup_call_right`. -/
def lookupCallRight (t : CSpaceTable) (pid : ProcessId) (channelId : ChannelId) :
    Except CapError Unit :=
  lookupEndpointRights t pid channelId CapRights.call

/-! ## What the tables hold -/

namespace CSpaceTable

/-- The node of process `p`, empty when it has no space. -/
def node (t : CSpaceTable) (p : ProcessId) : CNode := ((t.get p).map (·.root)).getD CNode.new

/-- Slot `i` of process `p` holds the capability `k`. -/
def Holds (t : CSpaceTable) (p : ProcessId) (i : CPtr) (k : Capability) : Prop :=
  i < cslotCount ∧ (t.node p).slots i = some k

theorem node_of_get {t : CSpaceTable} {p : ProcessId} {cs : CSpace} (h : t.get p = some cs) :
    t.node p = cs.root := by
  simp only [node, h, Option.map_some, Option.getD_some]

theorem node_of_get_none {t : CSpaceTable} {p : ProcessId} (h : t.get p = none) :
    t.node p = CNode.new := by
  simp only [node, h, Option.map_none, Option.getD_none]

theorem node_congr {t t' : CSpaceTable} {p : ProcessId} (h : t'.get p = t.get p) :
    t'.node p = t.node p := by
  simp only [node, h]

theorem not_holds_new (p : ProcessId) (i : CPtr) (k : Capability) :
    ¬ CSpaceTable.new.Holds p i k := by
  rintro ⟨-, h⟩
  rw [node_of_get_none (Slots.lookup_eq_none.mpr (Slots.position_eq_none.mpr fun _ _ => rfl))] at h
  cases h

/-- A new space is empty, and every other process keeps its own. -/
theorem node_insert {t t' : CSpaceTable} {pid : ProcessId} {r : Except CapError Unit}
    (hnone : t.get pid = none) (h : t.insert (CSpace.new pid) = (r, t')) (p : ProcessId) :
    t'.node p = t.node p := by
  unfold CSpaceTable.insert at h
  cases hfree : Slots.firstFree maxCspaces t.spaces with
  | none =>
    rw [hfree] at h
    cases h
    rfl
  | some x =>
    rw [hfree] at h
    cases h
    by_cases hp : p = pid
    · subst hp
      have hget : CSpaceTable.get
          { spaces := Function.update t.spaces x (some (CSpace.new p)) } p =
          some (CSpace.new p) := Slots.lookup_insert hnone hfree (by simp [CSpace.new])
      rw [node_of_get_none hnone, node_of_get hget]
      rfl
    · refine node_congr (Slots.lookup_update_of_not ?_ ?_)
      · rw [(Slots.firstFree_eq_some.mp hfree).1]
        rfl
      · simpa [CSpace.new] using fun h => hp h.symm

/-- Running `f` on one process's node leaves the others alone. -/
theorem node_modify_of_ne {R : Type} (t : CSpaceTable) {pid p : ProcessId} (hp : p ≠ pid)
    (f : CNode → Except CapError R × CNode) : (t.modify pid f).2.node p = t.node p := by
  unfold modify
  cases hpos : Slots.position maxCspaces t.spaces fun cs => cs.pid == pid with
  | none => rfl
  | some x =>
    obtain ⟨cs, hcs, hpid⟩ := (Option.any_eq_true _ _).mp (Slots.position_eq_some.mp hpos).1
    simp only [hcs]
    have hne : (cs.pid == p) = false := by
      rw [beq_eq_false_iff_ne, beq_iff_eq.mp hpid]
      exact fun h => hp h.symm
    exact node_congr (Slots.lookup_update_of_not (by rw [hcs]; exact hne) hne)

/-- The process itself gets what `f` leaves. -/
theorem node_modify_self {R : Type} {t : CSpaceTable} {pid : ProcessId}
    (h : t.get pid ≠ none) (f : CNode → Except CapError R × CNode) :
    (t.modify pid f).2.node pid = (f (t.node pid)).2 := by
  unfold modify
  cases hpos : Slots.position maxCspaces t.spaces fun cs => cs.pid == pid with
  | none => exact absurd (Slots.lookup_eq_none.mpr hpos) h
  | some x =>
    obtain ⟨cs, hcs, hpid⟩ := (Option.any_eq_true _ _).mp (Slots.position_eq_some.mp hpos).1
    have hget : t.get pid = some cs := by
      rw [CSpaceTable.get, Slots.lookup_of_position hpos, hcs]
    simp only [hcs]
    set cs' : CSpace := { cs with root := (f cs.root).2 }
    have hget' : CSpaceTable.get { spaces := Function.update t.spaces x (some cs') } pid =
        some cs' := Slots.lookup_update_self hpos hpid
    rw [node_of_get hget]
    exact node_of_get hget'

end CSpaceTable

open CSpaceTable

/-- `with_cspace_mut` leaves the other processes alone. -/
theorem node_withCspaceMut_of_ne {R : Type} (t : CSpaceTable) {pid p : ProcessId} (hp : p ≠ pid)
    (f : CNode → Except CapError R × CNode) : (withCspaceMut t pid f).2.node p = t.node p := by
  unfold withCspaceMut
  cases hget : t.get pid with
  | some cs => exact node_modify_of_ne t hp f
  | none =>
    simp only []
    cases hins : t.insert (CSpace.new pid) with
    | mk r t' =>
      have hsame := node_insert hget hins p
      cases r with
      | error e => exact hsame
      | ok _ => exact (node_modify_of_ne t' hp f).trans hsame

/-- The process itself gets what `f` leaves, unless it had no space and none could be
created. -/
theorem node_withCspaceMut_self {R : Type} (t : CSpaceTable) (pid : ProcessId)
    (f : CNode → Except CapError R × CNode) :
    (withCspaceMut t pid f).2.node pid = (f (t.node pid)).2 ∨
      (withCspaceMut t pid f).2.node pid = CNode.new := by
  unfold withCspaceMut
  cases hget : t.get pid with
  | some cs => exact Or.inl (node_modify_self (by rw [hget]; simp) f)
  | none =>
    simp only []
    cases hfree : Slots.firstFree maxCspaces t.spaces with
    | none =>
      simp only [CSpaceTable.insert, hfree]
      exact Or.inr (node_of_get_none hget)
    | some x =>
      have hins : t.insert (CSpace.new pid) =
          (.ok (), { spaces := Function.update t.spaces x (some (CSpace.new pid)) }) := by
        simp only [CSpaceTable.insert, hfree]
      rw [hins, ← node_insert hget hins pid]
      refine Or.inl (node_modify_self ?_ f)
      rw [CSpaceTable.get, Slots.lookup_insert hget hfree (by simp [CSpace.new])]
      simp

/-- After `insert_cap` a slot holds what it held, or the inserted capability. -/
theorem holds_insertCap {t : CSpaceTable} {pid : ProcessId} {cap : Capability} {p : ProcessId}
    {i : CPtr} {k : Capability} (h : (insertCap t pid cap).2.Holds p i k) :
    k = cap ∨ t.Holds p i k := by
  obtain ⟨hi, h⟩ := h
  by_cases hp : p = pid
  · subst hp
    rcases node_withCspaceMut_self t p (fun n => n.insert cap) with hn | hn
    · rw [insertCap, hn] at h
      unfold CNode.insert at h
      split at h
      · exact Or.inr ⟨hi, h⟩
      · rename_i j hj
        by_cases hij : i = j
        · subst hij
          simp only [Function.update_self, Option.some.injEq] at h
          exact Or.inl h.symm
        · simp only [Function.update_of_ne hij] at h
          exact Or.inr ⟨hi, h⟩
    · rw [insertCap, hn] at h
      cases h
  · rw [insertCap, node_withCspaceMut_of_ne t hp] at h
    exact Or.inr ⟨hi, h⟩

/-- After `insert_cap_at` a slot holds what it held, or the inserted capability. -/
theorem holds_insertCapAt {t : CSpaceTable} {pid : ProcessId} {cptr : CPtr} {cap : Capability}
    {p : ProcessId} {i : CPtr} {k : Capability}
    (h : (insertCapAt t pid cptr cap).2.Holds p i k) : k = cap ∨ t.Holds p i k := by
  obtain ⟨hi, h⟩ := h
  by_cases hp : p = pid
  · subst hp
    rcases node_withCspaceMut_self t p (fun n => n.insertAt cptr cap) with hn | hn
    · rw [insertCapAt, hn] at h
      unfold CNode.insertAt at h
      split at h
      · by_cases hij : i = cptr
        · subst hij
          simp only [Function.update_self, Option.some.injEq] at h
          exact Or.inl h.symm
        · simp only [Function.update_of_ne hij] at h
          exact Or.inr ⟨hi, h⟩
      · exact Or.inr ⟨hi, h⟩
    · rw [insertCapAt, hn] at h
      cases h
  · rw [insertCapAt, node_withCspaceMut_of_ne t hp] at h
    exact Or.inr ⟨hi, h⟩

/-- After `remove_cap` the slot is empty and every other slot holds what it held. -/
theorem holds_removeCap {t : CSpaceTable} {pid : ProcessId} {cptr : CPtr} {p : ProcessId}
    {i : CPtr} {k : Capability} (h : (removeCap t pid cptr).2.Holds p i k) :
    t.Holds p i k ∧ ¬ (p = pid ∧ i = cptr) := by
  obtain ⟨hi, h⟩ := h
  by_cases hp : p = pid
  · subst hp
    rcases node_withCspaceMut_self t p (fun n => n.remove cptr) with hn | hn
    · rw [removeCap, hn] at h
      unfold CNode.remove at h
      split at h
      · by_cases hij : i = cptr
        · subst hij
          simp only [Function.update_self] at h
          cases h
        · simp only [Function.update_of_ne hij] at h
          exact ⟨⟨hi, h⟩, fun hc => hij hc.2⟩
      · refine ⟨⟨hi, h⟩, fun hc => ?_⟩
        rw [hc.2] at hi
        contradiction
    · rw [removeCap, hn] at h
      cases h
  · rw [removeCap, node_withCspaceMut_of_ne t hp] at h
    exact ⟨⟨hi, h⟩, fun hc => hp hc.1⟩

/-- The capability a right check decides on is an endpoint capability some slot of the
process holds. -/
theorem holds_endpointCap {t : CSpaceTable} {pid : ProcessId} {ch : ChannelId} {k : Capability}
    (h : endpointCap t pid ch = .ok k) : k.capType = .endpoint ∧ ∃ i, t.Holds pid i k := by
  unfold endpointCap withCspace at h
  cases hget : t.get pid with
  | none =>
    rw [hget] at h
    cases h
  | some cs =>
    simp only [hget] at h
    cases hs : cs.root.search ch .endpoint with
    | none =>
      rw [hs] at h
      cases h
    | some k' =>
      rw [hs] at h
      cases h
      obtain ⟨i, hi, -, hslot, hmatch⟩ := Slots.lookup_eq_some hs
      rw [Bool.and_eq_true, beq_iff_eq, beq_iff_eq] at hmatch
      exact ⟨hmatch.2, i, hi, by rw [node_of_get hget]; exact hslot⟩

end QuackOS.Cap
