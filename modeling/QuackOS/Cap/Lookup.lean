import QuackOS.Cap.CSpace

/-!
# The right checks of IPC

`lookup_endpoint_rights` tests the rights of the first slot that holds an endpoint capability for
the channel, and looks no further.

* `lookupRight_ok_iff` — what a check that succeeds says;
* `lookupRight_exact_iff` — it finds the right whenever some slot has it, just when the first
  slot for the channel has it then.
-/

namespace QuackOS.Cap

open CSpaceTable

/-- The rights that are looked up. -/
inductive EndpointRight
  | send
  | recv
  | call
  deriving DecidableEq, Repr

namespace EndpointRight

/-- The bits a capability must have. -/
def required : EndpointRight → BitVec 16
  | .send => CapRights.send
  | .recv => CapRights.recv
  | .call => CapRights.call

/-- `lookup_send_right`, `lookup_recv_right` and `lookup_call_right`. -/
def lookup (t : CSpaceTable) (pid : ProcessId) (channelId : ChannelId) :
    EndpointRight → Except CapError Unit
  | .send => lookupSendRight t pid channelId
  | .recv => lookupRecvRight t pid channelId
  | .call => lookupCallRight t pid channelId

end EndpointRight

/-- Slot `i` of the process holds an endpoint capability for the channel. -/
structure EndpointAt (t : CSpaceTable) (pid : ProcessId) (channelId : ChannelId) (i : CPtr)
    (k : Capability) : Prop where
  holds : t.Holds pid i k
  type : k.capType = .endpoint
  object : k.objId = channelId

/-- The check succeeds just when some slot has the right. -/
def LookupExact (t : CSpaceTable) (pid : ProcessId) (channelId : ChannelId) (r : EndpointRight) :
    Prop :=
  r.lookup t pid channelId = .ok () ↔
    ∃ i k, EndpointAt t pid channelId i k ∧ k.rights.contains r.required = true

/-- If any slot for the channel has the right, the first one does. -/
def FirstHasRight (t : CSpaceTable) (pid : ProcessId) (channelId : ChannelId)
    (r : EndpointRight) : Prop :=
  (∃ i k, EndpointAt t pid channelId i k ∧ k.rights.contains r.required = true) →
    ∃ i k, EndpointAt t pid channelId i k ∧ (∀ j < i, ∀ k', ¬ EndpointAt t pid channelId j k') ∧
      k.rights.contains r.required = true

variable {t : CSpaceTable} {pid : ProcessId} {channelId : ChannelId} {r : EndpointRight}

/-- What the search of `lookup_endpoint_rights` matches. -/
theorem endpointAt_iff {i : CPtr} (hi : i < cslotCount) :
    (((t.node pid).slots i).any fun c => c.objId == channelId && c.capType == .endpoint) = true ↔
      ∃ k, EndpointAt t pid channelId i k := by
  rw [Option.any_eq_true]
  constructor
  · rintro ⟨k, hk, hmatch⟩
    rw [Bool.and_eq_true, beq_iff_eq, beq_iff_eq] at hmatch
    exact ⟨k, ⟨hi, hk⟩, hmatch.2, hmatch.1⟩
  · rintro ⟨k, ⟨-, hk⟩, htype, hobject⟩
    exact ⟨k, hk, by rw [Bool.and_eq_true, beq_iff_eq, beq_iff_eq]; exact ⟨hobject, htype⟩⟩

/-- **The capability a check decides on** is that of the first slot for the channel. -/
theorem endpointCap_eq_ok_iff {k : Capability} : endpointCap t pid channelId = .ok k ↔
    ∃ i, EndpointAt t pid channelId i k ∧ ∀ j < i, ∀ k', ¬ EndpointAt t pid channelId j k' := by
  have hnode : endpointCap t pid channelId = .ok k ↔
      (t.node pid).search channelId .endpoint = some k := by
    unfold endpointCap withCspace
    cases hget : t.get pid with
    | none =>
      rw [node_of_get_none hget]
      refine iff_of_false (fun h => nomatch h) fun h => ?_
      obtain ⟨i, -, -, hslot, -⟩ := Slots.lookup_eq_some h
      cases hslot
    | some cs =>
      rw [node_of_get hget]
      dsimp only
      cases hs : cs.root.search channelId .endpoint with
      | none => exact iff_of_false (fun h => nomatch h) (fun h => nomatch h)
      | some k' => simp
  rw [hnode]
  constructor
  · intro h
    obtain ⟨i, hi, hpos, hslot, hmatch⟩ := Slots.lookup_eq_some h
    rw [Bool.and_eq_true, beq_iff_eq, beq_iff_eq] at hmatch
    refine ⟨i, ⟨⟨hi, hslot⟩, hmatch.2, hmatch.1⟩, fun j hj k' hk' => ?_⟩
    have hmiss := (Slots.position_eq_some.mp hpos).2.2 j hj
    rw [(endpointAt_iff (hj.trans hi)).mpr ⟨k', hk'⟩] at hmiss
    cases hmiss
  · rintro ⟨i, hk, hfirst⟩
    have hpos : Slots.position cslotCount (t.node pid).slots
        (fun c => c.objId == channelId && c.capType == .endpoint) = some i := by
      refine Slots.position_eq_some.mpr ⟨(endpointAt_iff hk.holds.1).mpr ⟨k, hk⟩, hk.holds.1,
        fun j hj => ?_⟩
      rw [← Bool.not_eq_true, endpointAt_iff (hj.trans hk.holds.1)]
      rintro ⟨k', hk'⟩
      exact hfirst j hj k' hk'
    rw [CNode.search, Slots.lookup_of_position hpos]
    exact hk.holds.2

/-- A check succeeds on the first slot for the channel, if that has the right. -/
theorem lookupRight_ok_iff : r.lookup t pid channelId = .ok () ↔
    ∃ i k, EndpointAt t pid channelId i k ∧ (∀ j < i, ∀ k', ¬ EndpointAt t pid channelId j k') ∧
      k.rights.contains r.required = true := by
  have hlookup : r.lookup t pid channelId = lookupEndpointRights t pid channelId r.required := by
    cases r <;> rfl
  rw [hlookup, lookupEndpointRights]
  cases hcap : endpointCap t pid channelId with
  | error e =>
    refine iff_of_false (fun h => nomatch h) ?_
    rintro ⟨i, k, hk, hfirst, -⟩
    rw [endpointCap_eq_ok_iff.mpr ⟨i, hk, hfirst⟩] at hcap
    cases hcap
  | ok k =>
    have hfound := endpointCap_eq_ok_iff.mp hcap
    have hdecide : (if k.rights.contains r.required then Except.ok ()
        else Except.error CapError.rightsEscalation) = Except.ok () ↔
          k.rights.contains r.required = true := by
      cases k.rights.contains r.required <;> simp
    dsimp only
    rw [hdecide]
    constructor
    · intro hright
      obtain ⟨i, hk, hfirst⟩ := hfound
      exact ⟨i, k, hk, hfirst, hright⟩
    · rintro ⟨i, k', hk, hfirst, hright⟩
      have heq := hcap.symm.trans (endpointCap_eq_ok_iff.mpr ⟨i, hk, hfirst⟩)
      cases heq
      exact hright

/-- **A right check is exact just when the first slot for the channel has the right if any
does.** -/
theorem lookupRight_exact_iff (t : CSpaceTable) (pid : ProcessId) (channelId : ChannelId)
    (r : EndpointRight) : LookupExact t pid channelId r ↔ FirstHasRight t pid channelId r := by
  unfold LookupExact FirstHasRight
  rw [lookupRight_ok_iff]
  refine ⟨fun h => h.mpr, fun h => ⟨?_, h⟩⟩
  rintro ⟨i, k, hk, -, hright⟩
  exact ⟨i, k, hk, hright⟩

/-- Process 1 with a capability to receive on channel 5, and then one to send. -/
def narrowFirst : CSpaceTable :=
  let t := (insertCap .new 1 ⟨5, .endpoint, ⟨CapRights.recv⟩, some 1⟩).2
  (insertCap t 1 ⟨5, .endpoint, ⟨CapRights.send⟩, some 2⟩).2

/-- **A right in the second slot is not found.** -/
theorem narrow_capability_hides_right :
    lookupSendRight narrowFirst 1 5 = .error .rightsEscalation ∧
      narrowFirst.Holds 1 1 ⟨5, .endpoint, ⟨CapRights.send⟩, some 2⟩ ∧
      ¬ LookupExact narrowFirst 1 5 .send := by
  have hsend : lookupSendRight narrowFirst 1 5 = .error .rightsEscalation := by decide
  have hholds : narrowFirst.Holds 1 1 ⟨5, .endpoint, ⟨CapRights.send⟩, some 2⟩ := by
    refine ⟨by decide, ?_⟩
    decide
  refine ⟨hsend, hholds, fun hexact => ?_⟩
  have hok := hexact.mpr ⟨1, _, ⟨hholds, rfl, rfl⟩, by decide⟩
  rw [show EndpointRight.lookup narrowFirst 1 5 .send = .error .rightsEscalation from hsend] at hok
  cases hok

end QuackOS.Cap
