import QuackOS.Cap.Atomicity
import QuackOS.Cap.Revocation
import QuackOS.Ipc.Channel
import QuackOS.Lib.Errno

/-!
# Error numbers in `x0`

The calls on capabilities and on interrupts answer in `x0`, and a wrapper takes a negative value
for an error.  `cap_errno`, `derive_errno`, `register_irq` and `ack_irq` return the error number
as it is, and no caller negates it.

* `Call.run` — the seven calls, with the tables they read and change;
* `Unambiguous` — `x0` is negative just when the call failed;
* `unambiguous_iff` — this is so just for the calls that succeed, and for a mint of a type that
  does not exist.
-/

namespace QuackOS.Errno

open QuackOS.Cap CSpaceTable

/-! ## The error numbers -/

/-- `cap_errno`, not negated. -/
def capErrno : CapError → ℤ
  | .invalidCPtr | .emptySlot => ebadf
  | .rightsEscalation | .revoked | .grantChainBroken => eacces
  | .wrongCapType | .invalidProcess | .invalidArgument => einval
  | .cspaceFull | .cnodeFull | .untypedTooSmall | .untypedExhausted => enomem
  | .notImplemented => enosys

/-- `derive_errno`. -/
def deriveErrno : DeriveError → ℤ
  | .rightsEscalation | .parentRevoked => eacces
  | .tableFull => enomem

/-- What a mint or a derivation that failed leaves in `x0`. -/
def failureErrno : CapFailure → ℤ
  | .badType => -einval
  | .cap e => capErrno e
  | .derive e => deriveErrno e

/-! ## Interrupts -/

/-- `NotificationId`. -/
abbrev NotificationId := BitVec 32

def maxNotifications : Nat := 64

/-- The global table of notifications. -/
structure NotificationTable where
  slots : Nat → Option (NotificationId × Ipc.Notification)
  nextId : BitVec 32

/-- `create_notification`: the id is taken whether or not there is a slot. -/
def createNotification (t : NotificationTable) :
    Except Ipc.IpcError NotificationId × NotificationTable :=
  let id := t.nextId
  let t := { t with nextId := t.nextId + 1 }
  match Slots.firstFree maxNotifications t.slots with
  | none => (.error .channelTableFull, t)
  | some i => (.ok id, { t with slots := Function.update t.slots i (some (id, .new)) })

def maxIrqs : Nat := 256
def spiBase : Nat := 32

/-- The tables behind the calls; `irqs` is `IRQ_TABLE`. -/
structure Tables where
  caps : CapTables
  irqs : Nat → Option NotificationId
  notifications : NotificationTable

/-- `register_irq`, without what it writes to the interrupt controller. -/
def registerIrq (s : Tables) (irqNum : BitVec 32) : Except ℤ NotificationId × Tables :=
  if irqNum.toNat < spiBase ∨ maxIrqs ≤ irqNum.toNat then (.error einval, s)
  else if (s.irqs irqNum.toNat).isSome then (.error eexist, s)
  else
    match createNotification s.notifications with
    | (.error _, notifications) => (.error enomem, { s with notifications })
    | (.ok nid, notifications) =>
        (.ok nid, { s with
          notifications, irqs := Function.update s.irqs irqNum.toNat (some nid) })

/-- `ack_irq`, likewise. -/
def ackIrq (irqNum : BitVec 32) : Except ℤ Unit :=
  if irqNum.toNat < spiBase ∨ maxIrqs ≤ irqNum.toNat then .error einval else .ok ()

/-! ## The calls -/

/-- The calls, with their argument registers. -/
inductive Call
  | cspaceMint (x0 x1 x2 : BitVec 64)
  | cspaceDerive (x0 x1 : BitVec 64)
  | cspaceRevoke (x0 : BitVec 64)
  | cspaceMove (x0 x1 : BitVec 64)
  | cspaceDelete (x0 : BitVec 64)
  | irqRegister (x0 : BitVec 64)
  | irqAck (x0 : BitVec 64)

namespace Call

/-- What a call comes to, and the tables it leaves; the value is the one for `x0`, whether the
call succeeds or fails with an `isize`. -/
def run (s : Tables) (pid : ProcessId) : Call → Except ℤ (BitVec 64) × Tables
  | .cspaceMint x0 x1 x2 =>
      let (r, caps) := sysCspaceMint s.caps pid x0 x1 x2
      ((r.map (BitVec.ofNat 64)).mapError failureErrno, { s with caps })
  | .cspaceDerive x0 x1 =>
      let (r, caps) := sysCspaceDerive s.caps pid x0 x1
      ((r.map (BitVec.ofNat 64)).mapError failureErrno, { s with caps })
  | .cspaceRevoke x0 =>
      let (r, table, spaces) := sysCspaceRevoke s.caps.table s.caps.spaces pid x0.toNat
      ((r.map fun _ => 0).mapError capErrno, { s with caps := { table, spaces } })
  | .cspaceMove x0 x1 =>
      let (r, spaces) := sysCspaceMove s.caps.spaces pid x0.toNat x1.toNat
      ((r.map fun _ => 0).mapError capErrno, { s with caps := { s.caps with spaces } })
  | .cspaceDelete x0 =>
      let (r, spaces) := sysCspaceDelete s.caps.spaces pid x0.toNat
      ((r.map fun _ => 0).mapError capErrno, { s with caps := { s.caps with spaces } })
  | .irqRegister x0 =>
      let (r, s) := registerIrq s (x0.setWidth 32)
      (r.map fun nid => nid.setWidth 64, s)
  | .irqAck x0 => ((ackIrq (x0.setWidth 32)).map fun _ => 0, s)

end Call

/-- What a wrapper finds in `x0`. -/
def x0Of : Except ℤ (BitVec 64) → BitVec 64
  | .ok v => v
  | .error e => BitVec.ofInt 64 e

/-- **`x0` is negative just when the call failed.** -/
def Unambiguous (s : Tables) (pid : ProcessId) (c : Call) : Prop :=
  (x0Of (c.run s pid).1).toInt < 0 ↔ (c.run s pid).1.isOk = false

/-- The interrupt is one of the shared ones. -/
def ValidIrq (irqNum : BitVec 32) : Prop := spiBase ≤ irqNum.toNat ∧ irqNum.toNat < maxIrqs

/-- The calls that succeed. -/
def Succeeds (s : Tables) (pid : ProcessId) : Call → Prop
  | .cspaceMint x0 x1 x2 => Fits s.caps (.cspaceMint pid x0 x1 x2)
  | .cspaceDerive x0 x1 => Fits s.caps (.cspaceDerive pid x0 x1)
  | .cspaceRevoke x0 => ∃ k, s.caps.spaces.Holds pid x0.toNat k ∧ k.parentId ≠ none
  | .cspaceMove x0 x1 => (∃ k, s.caps.spaces.Holds pid x0.toNat k) ∧ x1.toNat < cslotCount
  | .cspaceDelete x0 => ∃ k, s.caps.spaces.Holds pid x0.toNat k
  | .irqRegister x0 => ValidIrq (x0.setWidth 32) ∧ s.irqs (x0.setWidth 32).toNat = none ∧
      ∃ i < maxNotifications, s.notifications.slots i = none
  | .irqAck x0 => ValidIrq (x0.setWidth 32)

/-- A mint of a type that does not exist. -/
def BadType : Call → Prop
  | .cspaceMint _ x1 _ => capTypeFromU8 (x1.setWidth 8) = none
  | _ => False

/-! ## What they leave -/

/-- The error numbers are positive. -/
theorem capErrno_nonneg (e : CapError) : 0 ≤ (BitVec.ofInt 64 (capErrno e)).toInt := by
  cases e <;> decide

theorem deriveErrno_nonneg (e : DeriveError) : 0 ≤ (BitVec.ofInt 64 (deriveErrno e)).toInt := by
  cases e <;> decide

theorem registerIrq_error {s : Tables} {irqNum : BitVec 32} {e : ℤ}
    (h : (registerIrq s irqNum).1 = .error e) : 0 ≤ (BitVec.ofInt 64 e).toInt := by
  unfold registerIrq at h
  split at h
  · cases h
    decide
  · split at h
    · cases h
      decide
    · split at h
      · cases h
        decide
      · cases h

/-- A slot number is not negative. -/
theorem cptr_nonneg {i : Nat} (h : i < cslotCount) : 0 ≤ (BitVec.ofNat 64 i).toInt := by
  have hi : i < 64 := h
  rw [BitVec.toInt_eq_toNat_cond, BitVec.toNat_ofNat]
  omega

/-- Nor is the number of a notification. -/
theorem nid_nonneg (nid : NotificationId) : 0 ≤ (nid.setWidth 64).toInt := by
  have := nid.isLt
  rw [BitVec.toInt_eq_toNat_cond, BitVec.toNat_setWidth]
  omega

theorem insertCap_lt {t t' : CSpaceTable} {pid : ProcessId} {cap : Capability} {i : CPtr}
    (h : insertCap t pid cap = (.ok i, t')) : i < cslotCount := by
  have hfst := congrArg Prod.fst h
  unfold insertCap at hfst
  rcases withCspaceMut_cases t pid fun n => n.insert cap with ⟨-, -, heq⟩ | ⟨-, hresult, -⟩
  · rw [heq] at hfst
    cases hfst
  · rw [hresult] at hfst
    unfold CNode.insert at hfst
    cases hfree : Slots.firstFree cslotCount (t.node pid).slots with
    | none =>
      rw [hfree] at hfst
      cases hfst
    | some j =>
      rw [hfree] at hfst
      cases hfst
      exact (Slots.firstFree_eq_some.mp hfree).2.1

theorem insertNew_lt {table : DeriveTable} {spaces : CSpaceTable} {pid : ProcessId}
    {cap : Capability} {i : CPtr} (h : (insertNew table spaces pid cap).1 = .ok i) :
    i < cslotCount := by
  unfold insertNew at h
  split at h
  · rename_i j t hins
    cases h
    exact insertCap_lt hins
  · cases h

/-- What a mint or a derivation leaves, of a type that exists. -/
theorem newCap_nonneg {r : Except CapFailure CPtr} (hlt : ∀ i, r = .ok i → i < cslotCount)
    (htype : r ≠ .error .badType) :
    0 ≤ (x0Of ((r.map (BitVec.ofNat 64)).mapError failureErrno)).toInt := by
  cases r with
  | ok i => exact cptr_nonneg (hlt i rfl)
  | error f =>
    cases f with
    | badType => exact absurd rfl htype
    | cap e => exact capErrno_nonneg e
    | derive e => exact deriveErrno_nonneg e

/-- What the other calls on capabilities leave. -/
theorem unit_nonneg (r : Except CapError Unit) :
    0 ≤ (x0Of ((r.map fun _ => 0).mapError capErrno)).toInt := by
  cases r with
  | ok _ => exact Int.le_refl 0
  | error e => exact capErrno_nonneg e

theorem insertNew_ne_badType (table : DeriveTable) (spaces : CSpaceTable) (pid : ProcessId)
    (cap : Capability) : (insertNew table spaces pid cap).1 ≠ .error .badType := by
  unfold insertNew
  split
  · exact fun h => nomatch h
  · exact fun h => nomatch h

theorem sysCspaceMint_x0 {s : CapTables} {pid : ProcessId} {x0 x1 x2 : BitVec 64}
    (h : capTypeFromU8 (x1.setWidth 8) ≠ none) :
    (∀ i, (sysCspaceMint s pid x0 x1 x2).1 = .ok i → i < cslotCount) ∧
      (sysCspaceMint s pid x0 x1 x2).1 ≠ .error .badType := by
  unfold sysCspaceMint
  cases htype : capTypeFromU8 (x1.setWidth 8) with
  | none => exact absurd htype h
  | some capType =>
    dsimp only
    rcases mintCap s.table x0.toNat capType ⟨x2.setWidth 16⟩ pid with ⟨e | cap, table⟩
    · exact ⟨fun i hi => (nomatch hi), fun he => (nomatch he)⟩
    · exact ⟨fun i hi => insertNew_lt hi, insertNew_ne_badType table s.spaces pid cap⟩

theorem sysCspaceDerive_x0 (s : CapTables) (pid : ProcessId) (x0 x1 : BitVec 64) :
    (∀ i, (sysCspaceDerive s pid x0 x1).1 = .ok i → i < cslotCount) ∧
      (sysCspaceDerive s pid x0 x1).1 ≠ .error .badType := by
  unfold sysCspaceDerive
  cases lookupCap s.spaces pid x0.toNat with
  | error e => exact ⟨fun i hi => (nomatch hi), fun he => (nomatch he)⟩
  | ok parent =>
    dsimp only
    rcases deriveCap s.table parent ⟨x1.setWidth 16⟩ pid with ⟨e | cap, table⟩
    · exact ⟨fun i hi => (nomatch hi), fun he => (nomatch he)⟩
    · exact ⟨fun i hi => insertNew_lt hi, insertNew_ne_badType table s.spaces pid cap⟩

/-- **`x0` is not negative**, unless the call is a mint of a type that does not exist. -/
theorem x0_nonneg (s : Tables) (pid : ProcessId) {c : Call} (h : ¬ BadType c) :
    0 ≤ (x0Of (c.run s pid).1).toInt := by
  cases c with
  | cspaceMint x0 x1 x2 =>
    obtain ⟨hlt, htype⟩ := @sysCspaceMint_x0 s.caps pid x0 x1 x2 h
    exact newCap_nonneg hlt htype
  | cspaceDerive x0 x1 =>
    obtain ⟨hlt, htype⟩ := sysCspaceDerive_x0 s.caps pid x0 x1
    exact newCap_nonneg hlt htype
  | cspaceRevoke x0 => exact unit_nonneg _
  | cspaceMove x0 x1 => exact unit_nonneg _
  | cspaceDelete x0 => exact unit_nonneg _
  | irqRegister x0 =>
    rcases hr : registerIrq s (x0.setWidth 32) with ⟨e | nid, s'⟩
    · rw [Call.run, hr]
      exact registerIrq_error (congrArg Prod.fst hr)
    · rw [Call.run, hr]
      exact nid_nonneg nid
  | irqAck x0 =>
    rw [Call.run, ackIrq]
    split
    · exact (by decide : 0 ≤ (BitVec.ofInt 64 einval).toInt)
    · exact Int.le_refl 0

/-- A type that does not exist is an error, and a negative one. -/
theorem run_badType (s : Tables) (pid : ProcessId) {c : Call} (h : BadType c) :
    (c.run s pid).1 = .error (-einval) := by
  cases c with
  | cspaceMint x0 x1 x2 =>
    rw [Call.run, sysCspaceMint, show capTypeFromU8 (x1.setWidth 8) = none from h]
    rfl
  | _ => exact h.elim

/-! ## The calls that succeed -/

section Succeeds

variable {t : CSpaceTable} {pid : ProcessId} {src dest : CPtr}

theorem sysCspaceRevoke_isOk_iff (table : DeriveTable) :
    (sysCspaceRevoke table t pid src).1.isOk = true ↔
      ∃ k, t.Holds pid src k ∧ k.parentId ≠ none := by
  unfold sysCspaceRevoke
  cases hlookup : lookupCap t pid src with
  | error e =>
    refine iff_of_false Bool.false_ne_true ?_
    rintro ⟨k, hk, -⟩
    rw [lookupCap_ok_iff.mpr hk] at hlookup
    cases hlookup
  | ok k =>
    have hk := lookupCap_ok_iff.mp hlookup
    dsimp only
    cases hid : k.parentId with
    | none =>
      have hrevoke : revoke (maxDerivations + 1) table k = some (.error .invalidCPtr, table) := by
        simp only [revoke, hid]
      rw [hrevoke]
      refine iff_of_false Bool.false_ne_true ?_
      rintro ⟨k', hk', hsome⟩
      obtain rfl : k' = k := Option.some.inj (hk'.2.symm.trans hk.2)
      exact hsome hid
    | some id =>
      obtain ⟨n, table', hrevoke, -⟩ := revoke_of_parentId (t := table) hid
      rw [hrevoke _ (Nat.lt_succ_self _)]
      refine iff_of_true ?_ ⟨k, hk, by rw [hid]; exact Option.some_ne_none id⟩
      dsimp only
      obtain ⟨hok, -⟩ := removeCap_of_holds hk
      rcases hr : removeCap t pid src with ⟨r, t'⟩
      rw [hr] at hok
      dsimp only at hok
      subst hok
      rfl

theorem sysCspaceMove_isOk_iff : (sysCspaceMove t pid src dest).1.isOk = true ↔
    (∃ k, t.Holds pid src k) ∧ dest < cslotCount := by
  by_cases hempty : ∃ k, t.Holds pid src k
  · obtain ⟨k, hk⟩ := hempty
    rcases @sysCspaceMove_of_holds t pid src dest k hk with ⟨hlt, hok, -⟩ | ⟨hge, herror, -⟩
    · rw [hok]
      exact iff_of_true rfl ⟨⟨k, hk⟩, hlt⟩
    · rw [herror]
      exact iff_of_false Bool.false_ne_true fun h => hge h.2
  · obtain ⟨⟨e, herror⟩, -⟩ := @sysCspaceMove_of_empty t pid src dest (not_exists.mp hempty)
    rw [herror]
    exact iff_of_false Bool.false_ne_true fun h => hempty h.1

theorem sysCspaceDelete_isOk_iff : (sysCspaceDelete t pid src).1.isOk = true ↔
    ∃ k, t.Holds pid src k := by
  unfold sysCspaceDelete
  rcases hr : removeCap t pid src with ⟨r, t'⟩
  by_cases hempty : ∃ k, t.Holds pid src k
  · obtain ⟨k, hk⟩ := hempty
    obtain ⟨hok, -⟩ := removeCap_of_holds hk
    rw [hr] at hok
    dsimp only at hok
    subst hok
    exact iff_of_true rfl ⟨k, hk⟩
  · obtain ⟨⟨e, herror⟩, -⟩ := @removeCap_of_empty t pid src (not_exists.mp hempty)
    rw [hr] at herror
    dsimp only at herror
    subst herror
    exact iff_of_false Bool.false_ne_true hempty

end Succeeds

theorem registerIrq_isOk_iff (s : Tables) (irqNum : BitVec 32) :
    (registerIrq s irqNum).1.isOk = true ↔ ValidIrq irqNum ∧ s.irqs irqNum.toNat = none ∧
      ∃ i < maxNotifications, s.notifications.slots i = none := by
  unfold registerIrq ValidIrq
  by_cases hvalid : irqNum.toNat < spiBase ∨ maxIrqs ≤ irqNum.toNat
  · rw [if_pos hvalid]
    exact iff_of_false Bool.false_ne_true fun h => by omega
  · rw [if_neg hvalid]
    cases hreg : s.irqs irqNum.toNat with
    | some nid => exact iff_of_false Bool.false_ne_true fun h => nomatch h.2.1
    | none =>
      unfold createNotification
      dsimp only [Option.isSome]
      rw [if_neg Bool.false_ne_true]
      cases hfree : Slots.firstFree maxNotifications s.notifications.slots with
      | none =>
        refine iff_of_false Bool.false_ne_true ?_
        rintro ⟨-, -, i, hi, hslot⟩
        exact Slots.firstFree_eq_none.mp hfree i hi hslot
      | some i =>
        obtain ⟨hslot, hi, -⟩ := Slots.firstFree_eq_some.mp hfree
        exact iff_of_true rfl ⟨by omega, rfl, i, hi, hslot⟩

theorem isOk_map_mapError {ε ε' α β : Type} (r : Except ε α) (f : α → β) (g : ε → ε') :
    ((r.map f).mapError g).isOk = r.isOk := by
  cases r <;> rfl

theorem isOk_map {ε α β : Type} (r : Except ε α) (f : α → β) : (r.map f).isOk = r.isOk := by
  cases r <;> rfl

/-- **The calls that succeed.** -/
theorem isOk_run_iff (s : Tables) (pid : ProcessId) (c : Call) :
    (c.run s pid).1.isOk = true ↔ Succeeds s pid c := by
  cases c with
  | cspaceMint x0 x1 x2 =>
    rw [Call.run, isOk_map_mapError]
    exact succeeds_iff s.caps (.cspaceMint pid x0 x1 x2)
  | cspaceDerive x0 x1 =>
    rw [Call.run, isOk_map_mapError]
    exact succeeds_iff s.caps (.cspaceDerive pid x0 x1)
  | cspaceRevoke x0 =>
    rw [Call.run, isOk_map_mapError]
    exact sysCspaceRevoke_isOk_iff s.caps.table
  | cspaceMove x0 x1 =>
    rw [Call.run, isOk_map_mapError]
    exact sysCspaceMove_isOk_iff
  | cspaceDelete x0 =>
    rw [Call.run, isOk_map_mapError]
    exact sysCspaceDelete_isOk_iff
  | irqRegister x0 =>
    rw [Call.run, isOk_map]
    exact registerIrq_isOk_iff s (x0.setWidth 32)
  | irqAck x0 =>
    rw [Call.run, isOk_map, ackIrq, Succeeds, ValidIrq]
    split
    · exact iff_of_false Bool.false_ne_true (by omega)
    · exact iff_of_true rfl (by omega)

/-- **The sign of `x0` is right just for a call that succeeds, and for a mint of a type that does
not exist.** -/
theorem unambiguous_iff (s : Tables) (pid : ProcessId) (c : Call) :
    Unambiguous s pid c ↔ Succeeds s pid c ∨ BadType c := by
  unfold Unambiguous
  by_cases hbad : BadType c
  · rw [run_badType s pid hbad]
    exact iff_of_true (iff_of_true (by decide) rfl) (Or.inr hbad)
  · rw [← isOk_run_iff, or_iff_left hbad, ← Bool.not_eq_true]
    have hsign := x0_nonneg s pid hbad
    constructor
    · intro h
      by_contra hfails
      have := h.mpr hfails
      omega
    · exact fun hok => iff_of_false (by omega) (not_not.mpr hok)

/-- The tables at boot. -/
def boot : Tables := ⟨⟨.new, .new⟩, fun _ => none, ⟨fun _ => none, 0⟩⟩

/-- **A derivation that fails answers with what could be a slot number.** -/
theorem failed_derive_looks_valid :
    ((Call.cspaceDerive 0 0).run boot 1).1 = .error 22 ∧
      (x0Of ((Call.cspaceDerive 0 0).run boot 1).1).toNat < cslotCount ∧
      ¬ Unambiguous boot 1 (.cspaceDerive 0 0) := by
  have herror : ((Call.cspaceDerive 0 0).run boot 1).1 = .error 22 := by decide
  refine ⟨herror, by rw [herror]; decide, fun h => ?_⟩
  have hsign := h.mpr (by rw [herror]; rfl)
  rw [herror] at hsign
  exact absurd hsign (by decide)

end QuackOS.Errno
