import QuackOS.Cap.CSpace
import QuackOS.Cap.DeriveTree

/-!
# Revocation and the right checks of IPC

Rights are recorded twice: in the CSpace slots, which `lookup_endpoint_rights` reads, and in
the derivation tree, which `revoke` marks.  `sys_cspace_revoke` marks the whole subtree but
clears one slot only, and no right check ever looks at the tree.

* `CapState.step` — the six operations over the pair of tables;
* `staleRight` — a run in which a revoked right still passes the check;
* `revocation_effective` — the runs in which that cannot happen.
-/

namespace QuackOS.Cap

open DeriveTable CSpaceTable

/-- `sys_cspace_revoke` for the calling process: mark the subtree in the derivation table,
then clear the one slot the call names. -/
def sysCspaceRevoke (t : DeriveTable) (spaces : CSpaceTable) (pid : ProcessId) (cptr : CPtr) :
    Except CapError Unit × DeriveTable × CSpaceTable :=
  match lookupCap spaces pid cptr with
  | .error e => (.error e, t, spaces)
  | .ok cap =>
      match revoke (maxDerivations + 1) t cap with
      | none => (.error .notImplemented, t, spaces)
      | some (.error e, t) => (.error e, t, spaces)
      | some (.ok _, t) =>
          match removeCap spaces pid cptr with
          | (.ok _, spaces) => (.ok (), t, spaces)
          | (.error e, spaces) => (.error e, t, spaces)

/-- The operations on capabilities, with all their arguments. -/
inductive CapOp
  | mintCap (objId : Nat) (capType : CapType) (rights : CapRights) (owner : ProcessId)
  | deriveCap (parent : Capability) (newRights : CapRights) (owner : ProcessId)
  | insertCap (pid : ProcessId) (cap : Capability)
  | insertCapAt (pid : ProcessId) (cptr : CPtr) (cap : Capability)
  | removeCap (pid : ProcessId) (cptr : CPtr)
  | cspaceRevoke (pid : ProcessId) (cptr : CPtr)

/-- Both tables, and the history variable `revoked`: the capabilities `sys_cspace_revoke` has
successfully revoked. -/
structure CapState where
  table : DeriveTable
  spaces : CSpaceTable
  revoked : List Capability

namespace CapState

/-- The state at boot. -/
def boot : CapState := { table := DeriveTable.new, spaces := CSpaceTable.new, revoked := [] }

/-- What `sys_cspace_revoke` adds to the history. -/
def revokedBy (s : CapState) (pid : ProcessId) (cptr : CPtr) : List Capability :=
  match lookupCap s.spaces pid cptr with
  | .error _ => []
  | .ok cap =>
      match revoke (maxDerivations + 1) s.table cap with
      | some (.ok _, _) => [cap]
      | _ => []

/-- One operation. -/
def step (s : CapState) : CapOp → CapState
  | .mintCap o ty r ow => { s with table := (Cap.mintCap s.table o ty r ow).2 }
  | .deriveCap par r ow => { s with table := (Cap.deriveCap s.table par r ow).2 }
  | .insertCap pid cap => { s with spaces := (Cap.insertCap s.spaces pid cap).2 }
  | .insertCapAt pid cptr cap => { s with spaces := (Cap.insertCapAt s.spaces pid cptr cap).2 }
  | .removeCap pid cptr => { s with spaces := (Cap.removeCap s.spaces pid cptr).2 }
  | .cspaceRevoke pid cptr =>
      let (_, table, spaces) := sysCspaceRevoke s.table s.spaces pid cptr
      { table, spaces, revoked := s.revokedBy pid cptr ++ s.revoked }

/-- The state after a sequence of operations from boot. -/
def run (ops : List CapOp) : CapState := Run.exec step boot ops

end CapState

/-- Some IPC right check can succeed on the strength of this capability. -/
def Capability.grantsIpc (k : Capability) : Bool :=
  k.capType == .endpoint && (k.hasRights CapRights.send || k.hasRights CapRights.recv)

/-- No right check succeeds on the strength of a slot that holds a revoked capability or one
derived from it. -/
def CapState.RevocationEffective (s : CapState) : Prop :=
  ∀ (pid : ProcessId) (ch : ChannelId) (k : Capability), endpointCap s.spaces pid ch = .ok k →
    (∃ c ∈ s.revoked, DerivedCap s.table c k) →
      lookupSendRight s.spaces pid ch ≠ .ok () ∧ lookupRecvRight s.spaces pid ch ≠ .ok () ∧
        lookupCallRight s.spaces pid ch ≠ .ok ()

/-- The condition on a step under which the slots and the tree stay in agreement.
* an allocation does not wrap the counter of the derivation table;
* a capability with an IPC right is inserted only if its index has been handed out and it is
  neither revoked nor derived from a revoked one;
* a capability is revoked only when no other slot of any process holds an IPC right that is
  derived from it. -/
def CapState.Tracked (s : CapState) : CapOp → Prop
  | .mintCap _ _ _ _ => s.table.nextId + 1 < 2 ^ 64
  | .deriveCap _ _ _ => s.table.nextId + 1 < 2 ^ 64
  | .insertCap _ cap | .insertCapAt _ _ cap => cap.grantsIpc = true →
      (∀ id, cap.parentId = some id → id < s.table.nextId) ∧
        ∀ c ∈ s.revoked, ¬ DerivedCap s.table c cap
  | .removeCap _ _ => True
  | .cspaceRevoke pid cptr => ∀ c, lookupCap s.spaces pid cptr = .ok c →
      ∀ p i k, s.spaces.Holds p i k → ¬ (p = pid ∧ i = cptr) → k.grantsIpc = true →
        ¬ DerivedCap s.table c k

/-! ## Derivation as the table changes -/

/-- A new entry does not change what an earlier index is derived from. -/
theorem DeriveTable.WellFormed.derived_grow {t : DeriveTable} (h : t.WellFormed)
    (hfull : t.nextId < maxDerivations) (e : DeriveEntry) {c d : Nat} (hd : d < t.nextId)
    (hder : (t.grow e).Derived c d) : t.Derived c d := by
  induction hder using Relation.ReflTransGen.head_induction_on with
  | refl => exact Relation.ReflTransGen.refl
  | head hlink _ ih =>
    rw [parentLink_grow hfull, if_neg (by omega)] at hlink
    obtain ⟨e', he', hp⟩ := hlink
    have hlt := (h.parent_lt _ e' _ he' hp).1
    exact Relation.ReflTransGen.head ⟨e', he', hp⟩ (ih (by omega))

/-- What `mint_cap` and `derive_cap` do to the table, as far as derivation is concerned. -/
structure DeriveTable.Extends (t t' : DeriveTable) : Prop where
  wellFormed : t'.WellFormed
  nextId_le : t.nextId ≤ t'.nextId
  derived : ∀ c d, d < t.nextId → t'.Derived c d → t.Derived c d

theorem DeriveTable.WellFormed.extends_bump {t : DeriveTable} (h : t.WellFormed)
    (hw : t.nextId + 1 < 2 ^ 64) : t.Extends t.bump where
  wellFormed := h.bump hw
  nextId_le := by
    rw [bump_nextId, Nat.mod_eq_of_lt hw]
    omega
  derived _ _ _ hd := hd

theorem DeriveTable.nextId_le_grow {t : DeriveTable} (hw : t.nextId + 1 < 2 ^ 64)
    (e : DeriveEntry) : t.nextId ≤ (t.grow e).nextId := by
  rw [grow, put_nextId, bump_nextId, Nat.mod_eq_of_lt hw]
  omega

theorem extends_mintCap {t : DeriveTable} (h : t.WellFormed) (hw : t.nextId + 1 < 2 ^ 64)
    (o : Nat) (ty : CapType) (r : CapRights) (ow : ProcessId) :
    t.Extends (mintCap t o ty r ow).2 := by
  rcases mintCap_cases t o ty r ow with ⟨-, heq⟩ | ⟨hfull, heq⟩
  · rw [heq]
    exact h.extends_bump hw
  · rw [heq]
    exact ⟨h.grow hw hfull rfl (fun p hp => by cases hp), nextId_le_grow hw _,
      fun c d hd => h.derived_grow hfull _ hd⟩

theorem extends_deriveCap {t : DeriveTable} (h : t.WellFormed) (hw : t.nextId + 1 < 2 ^ 64)
    (par : Capability) (r : CapRights) (ow : ProcessId) :
    t.Extends (deriveCap t par r ow).2 := by
  rcases deriveCap_cases t par r ow with ⟨err, heq⟩ | heq |
    ⟨pid, pe, e, -, hpe, -, hfull, -, he, hres⟩
  · rw [heq]
    exact ⟨h, le_refl _, fun _ _ _ hd => hd⟩
  · rw [heq]
    exact h.extends_bump hw
  · have hgrow := h.grow_child hw hfull hpe he
    have hnew : (t.grow e).get t.nextId = some e := by
      rw [get_grow hfull, if_pos rfl]
    rcases hres with heq | ⟨pe', hpe', heq⟩
    · rw [heq]
      exact ⟨hgrow, nextId_le_grow hw _, fun c d hd => h.derived_grow hfull _ hd⟩
    · rw [heq]
      refine ⟨hgrow.link hpe' ⟨e, hnew, by rw [he]; rfl⟩, nextId_le_grow hw e, ?_⟩
      intro c d hd hder
      refine h.derived_grow hfull e hd ?_
      unfold Derived at hder ⊢
      rwa [parentLink_link hpe'] at hder

/-! ## The invariant -/

/-- The slots and the tree agree: an IPC right in a slot belongs to an index that has been
handed out, and is neither revoked nor derived from a revoked capability. -/
structure CapState.Agrees (s : CapState) : Prop where
  wellFormed : s.table.WellFormed
  lt_nextId : ∀ p i k, s.spaces.Holds p i k → k.grantsIpc = true →
    ∀ id, k.parentId = some id → id < s.table.nextId
  fresh : ∀ p i k, s.spaces.Holds p i k → k.grantsIpc = true →
    ∀ c ∈ s.revoked, ¬ DerivedCap s.table c k

namespace CapState

theorem agrees_boot : boot.Agrees where
  wellFormed := wellFormed_new
  lt_nextId p i k h := absurd h (not_holds_new p i k)
  fresh p i k h := absurd h (not_holds_new p i k)

/-- Allocating in the derivation table keeps the agreement. -/
theorem Agrees.of_extends {s : CapState} (h : s.Agrees) {t : DeriveTable}
    (ht : s.table.Extends t) : Agrees { s with table := t } where
  wellFormed := ht.wellFormed
  lt_nextId p i k hk hipc id hid := lt_of_lt_of_le (h.lt_nextId p i k hk hipc id hid) ht.nextId_le
  fresh p i k hk hipc c hc := by
    rintro ⟨a, b, ha, hb, hder⟩
    exact h.fresh p i k hk hipc c hc
      ⟨a, b, ha, hb, ht.derived a b (h.lt_nextId p i k hk hipc b hb) hder⟩

/-- So does a change of the slots that adds at most one capability, itself fresh. -/
theorem Agrees.of_holds {s : CapState} (h : s.Agrees) {sp : CSpaceTable} {cap : Capability}
    (hsp : ∀ p i k, sp.Holds p i k → k = cap ∨ s.spaces.Holds p i k)
    (hcap : cap.grantsIpc = true → (∀ id, cap.parentId = some id → id < s.table.nextId) ∧
      ∀ c ∈ s.revoked, ¬ DerivedCap s.table c cap) : Agrees { s with spaces := sp } where
  wellFormed := h.wellFormed
  lt_nextId p i k hk hipc := by
    rcases hsp p i k hk with rfl | hold
    · exact (hcap hipc).1
    · exact h.lt_nextId p i k hold hipc
  fresh p i k hk hipc := by
    rcases hsp p i k hk with rfl | hold
    · exact (hcap hipc).2
    · exact h.fresh p i k hold hipc

/-- What `sys_cspace_revoke` can do: fail and change nothing, or mark a set of entries, clear
the slot and record the capability. -/
theorem step_cspaceRevoke (s : CapState) (pid : ProcessId) (cptr : CPtr) :
    s.step (.cspaceRevoke pid cptr) = s ∨
    ∃ cap S, lookupCap s.spaces pid cptr = .ok cap ∧ s.step (.cspaceRevoke pid cptr) =
      { table := s.table.mark S, spaces := (Cap.removeCap s.spaces pid cptr).2,
        revoked := cap :: s.revoked } := by
  unfold step revokedBy sysCspaceRevoke
  cases hl : lookupCap s.spaces pid cptr with
  | error e =>
    simp only [hl]
    exact Or.inl rfl
  | ok cap =>
    cases hid : cap.parentId with
    | none =>
      have hr : Cap.revoke (maxDerivations + 1) s.table cap =
          some (.error .invalidCPtr, s.table) := by
        simp only [Cap.revoke, hid]
      simp only [hl, hr]
      exact Or.inl rfl
    | some id =>
      obtain ⟨n, t', hr, S, rfl, -⟩ := revoke_of_parentId (t := s.table) hid
      refine Or.inr ⟨cap, S, rfl, ?_⟩
      simp only [hl, hr _ (Nat.lt_succ_self _)]
      cases hrem : Cap.removeCap s.spaces pid cptr with
      | mk r sp => cases r <;> rfl

/-- `sys_cspace_revoke` keeps the agreement when no other slot holds a right derived from the
revoked capability. -/
theorem Agrees.cspaceRevoke {s : CapState} (h : s.Agrees) {pid : ProcessId} {cptr : CPtr}
    (hC : s.Tracked (.cspaceRevoke pid cptr)) : (s.step (.cspaceRevoke pid cptr)).Agrees := by
  rcases s.step_cspaceRevoke pid cptr with heq | ⟨cap, S, hl, heq⟩
  · rw [heq]
    exact h
  · rw [heq]
    refine ⟨h.wellFormed.mark S, fun p i k hk => ?_, fun p i k hk hipc c hc => ?_⟩
    · exact h.lt_nextId p i k (holds_removeCap hk).1
    · obtain ⟨hold, hother⟩ := holds_removeCap hk
      have hbefore : ¬ DerivedCap s.table c k := by
        rcases List.mem_cons.mp hc with rfl | hc
        · exact hC c hl p i k hold hother hipc
        · exact h.fresh p i k hold hipc c hc
      rintro ⟨a, b, ha, hb, hder⟩
      exact hbefore ⟨a, b, ha, hb, (derived_mark s.table S a b).mp hder⟩

/-- Every tracked step keeps the agreement. -/
theorem agrees_step (s : CapState) (op : CapOp) (h : s.Agrees) (hC : s.Tracked op) :
    (s.step op).Agrees := by
  cases op with
  | mintCap o ty r ow => exact h.of_extends (extends_mintCap h.wellFormed hC o ty r ow)
  | deriveCap par r ow => exact h.of_extends (extends_deriveCap h.wellFormed hC par r ow)
  | insertCap pid cap => exact h.of_holds (fun p i k hk => holds_insertCap hk) hC
  | insertCapAt pid cptr cap => exact h.of_holds (fun p i k hk => holds_insertCapAt hk) hC
  | removeCap pid cptr =>
    refine ⟨h.wellFormed, fun p i k hk => ?_, fun p i k hk => ?_⟩
    · exact h.lt_nextId p i k (holds_removeCap hk).1
    · exact h.fresh p i k (holds_removeCap hk).1
  | cspaceRevoke pid cptr => exact h.cspaceRevoke hC

/-- A capability that passes any of the three checks grants an IPC right. -/
theorem grantsIpc_of_lookup {t : CSpaceTable} {pid : ProcessId} {ch : ChannelId}
    {k : Capability} (hk : endpointCap t pid ch = .ok k) {r : BitVec 16}
    (hr : r &&& CapRights.send = CapRights.send ∨ r &&& CapRights.recv = CapRights.recv)
    (h : lookupEndpointRights t pid ch r = .ok ()) : k.grantsIpc = true := by
  obtain ⟨hty, -⟩ := holds_endpointCap hk
  simp only [lookupEndpointRights, hk] at h
  split at h
  · rename_i hc
    rw [CapRights.contains, beq_iff_eq] at hc
    have hsub : ∀ b, r &&& b = b → k.rights.bits &&& b = b := by
      intro b hb
      calc k.rights.bits &&& b = k.rights.bits &&& (r &&& b) := by rw [hb]
        _ = (k.rights.bits &&& r) &&& b := (BitVec.and_assoc _ _ _).symm
        _ = b := by rw [hc, hb]
    simp only [Capability.grantsIpc, hty, Capability.hasRights, CapRights.contains,
      Bool.and_eq_true, Bool.or_eq_true, beq_iff_eq]
    exact ⟨trivial, hr.imp (hsub _) (hsub _)⟩
  · cases h

/-- When slots and tree agree, no check succeeds on a revoked right. -/
theorem Agrees.effective {s : CapState} (h : s.Agrees) : s.RevocationEffective := by
  intro pid ch k hk ⟨c, hc, hder⟩
  obtain ⟨-, i, hi⟩ := holds_endpointCap hk
  have hno : k.grantsIpc ≠ true := fun hipc => h.fresh pid i k hi hipc c hc hder
  refine ⟨fun hok => hno ?_, fun hok => hno ?_, fun hok => hno ?_⟩
  · exact grantsIpc_of_lookup hk (Or.inl (by decide)) hok
  · exact grantsIpc_of_lookup hk (Or.inr (by decide)) hok
  · exact grantsIpc_of_lookup hk (Or.inl (by decide)) hok

end CapState

/-! ## The law, and where it fails -/

/-- A right is minted for process 1, a copy derived from it is given to process 2, and
process 1 revokes. -/
def staleRight : List CapOp :=
  [.mintCap 7 .endpoint ⟨CapRights.call⟩ 1,
    .insertCap 1 ⟨7, .endpoint, ⟨CapRights.call⟩, some 0⟩,
    .deriveCap ⟨7, .endpoint, ⟨CapRights.call⟩, some 0⟩ ⟨CapRights.send⟩ 2,
    .insertCap 2 ⟨7, .endpoint, ⟨CapRights.send⟩, some 1⟩,
    .cspaceRevoke 1 0]

/-- **A revoked right still passes.**  After `staleRight` the tree says that process 2's copy
is revoked, and `lookup_send_right` grants it all the same. -/
theorem staleRight_not_effective : ¬ (CapState.run staleRight).RevocationEffective := by
  intro h
  have hcap : endpointCap (CapState.run staleRight).spaces 2 7 =
      .ok ⟨7, .endpoint, ⟨CapRights.send⟩, some 1⟩ := by decide
  have hrev : (⟨7, .endpoint, ⟨CapRights.call⟩, some 0⟩ : Capability) ∈
      (CapState.run staleRight).revoked := by decide
  have hlink : (CapState.run staleRight).table.ParentLink 1 0 := by
    have hp : ((CapState.run staleRight).table.get 1).map (·.parent) = some (some 0) := by decide
    obtain ⟨e, he, hpar⟩ := Option.map_eq_some_iff.mp hp
    exact ⟨e, he, hpar⟩
  refine (h 2 7 _ hcap ⟨_, hrev, 0, 1, rfl, rfl, Relation.ReflTransGen.single hlink⟩).1 ?_
  decide

/-- **Revocation is effective for tracked rights.**  In every run whose steps are all tracked,
no right check of any process succeeds on a revoked or derived capability, in any state the
run passes through. -/
theorem revocation_effective (ops : List CapOp)
    (h : Run.Along CapState.step CapState.Tracked CapState.boot ops) (pre : List CapOp)
    (hpre : pre <+: ops) : (CapState.run pre).RevocationEffective :=
  (Run.exec_invariant_prefix CapState.agrees_step CapState.agrees_boot h hpre).effective

/-- Process 1 revokes a frame while process 2 holds an unrelated endpoint. -/
def unrelatedRights : List CapOp :=
  [.mintCap 4 .frame ⟨CapRights.read⟩ 1,
    .insertCap 1 ⟨4, .frame, ⟨CapRights.read⟩, some 0⟩,
    .mintCap 7 .endpoint ⟨CapRights.call⟩ 2,
    .insertCap 2 ⟨7, .endpoint, ⟨CapRights.call⟩, some 1⟩,
    .cspaceRevoke 1 0]

/-- An entry minted as a root is derived from itself only. -/
theorem DeriveTable.derived_of_root {t : DeriveTable} {c d : Nat} {e : DeriveEntry}
    (he : t.get d = some e) (hroot : e.parent = none) (h : t.Derived c d) : c = d := by
  rcases Relation.ReflTransGen.cases_head h with rfl | ⟨p, ⟨e', he', hp⟩, -⟩
  · rfl
  · rw [he, Option.some.injEq] at he'
    rw [← he', hroot] at hp
    cases hp

theorem revocation_effective_unrelatedRights :
    Run.Along CapState.step CapState.Tracked CapState.boot unrelatedRights ∧
    (CapState.run unrelatedRights).revoked ≠ [] ∧
    lookupCallRight (CapState.run unrelatedRights).spaces 2 7 = .ok () ∧
    (CapState.run unrelatedRights).RevocationEffective := by
  have hlast : (CapState.run (unrelatedRights.take 4)).Tracked (.cspaceRevoke 1 0) := by
    intro c hc p i k hk _ hipc
    have hframe : lookupCap (CapState.run (unrelatedRights.take 4)).spaces 1 0 =
        .ok ⟨4, .frame, ⟨CapRights.read⟩, some 0⟩ := by decide
    rw [hframe] at hc
    cases hc
    rcases holds_insertCap hk with rfl | hk
    · rintro ⟨a, b, ha, hb, hder⟩
      cases ha
      cases hb
      have hroot : ((CapState.run (unrelatedRights.take 4)).table.get 1).map (·.parent) =
          some none := by decide
      obtain ⟨e, he, hpar⟩ := Option.map_eq_some_iff.mp hroot
      have := derived_of_root he hpar hder
      omega
    · rcases holds_insertCap hk with rfl | hk
      · exact absurd hipc (by decide)
      · exact absurd hk (not_holds_new p i k)
  have hrun : Run.Along CapState.step CapState.Tracked CapState.boot unrelatedRights := by
    refine ⟨?_, fun h => absurd h (by decide), ?_, fun _ => ⟨?_, ?_⟩, hlast, trivial⟩
    · unfold CapState.Tracked
      decide
    · unfold CapState.Tracked
      decide
    · intro id hid
      cases hid
      decide
    · intro c hc
      cases hc
  exact ⟨hrun, by decide, by decide, revocation_effective unrelatedRights hrun _ List.prefix_rfl⟩

end QuackOS.Cap
