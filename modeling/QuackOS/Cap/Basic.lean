import Mathlib.Data.BitVec

/-!
# Capabilities

The data model of `kernel/cap`: capability types, rights masks, the capability value a
CSpace slot holds, and the error enumerations of the two sub-modules.
-/

namespace QuackOS.Cap

/-- `kernel::ipc::message::ProcessId`. -/
abbrev ProcessId := Nat

/-- The kernel-object types a capability can reference. -/
inductive CapType
  | untyped
  | endpoint
  | thread
  | pageTable
  | frame
  | notification
  | cnode
  deriving DecidableEq, Repr

/-- The access-rights bitmask attached to every capability. -/
structure CapRights where
  bits : BitVec 16
  deriving DecidableEq, Repr

namespace CapRights

def read : BitVec 16 := 1#16 <<< 0
def write : BitVec 16 := 1#16 <<< 1
def grant : BitVec 16 := 1#16 <<< 2
def send : BitVec 16 := 1#16 <<< 3
def recv : BitVec 16 := 1#16 <<< 4

/-- Combined `SEND | RECV`, required for `sys_ipc_call`. -/
def call : BitVec 16 := send ||| recv

/-- `true` if this rights set contains all bits in `other`. -/
def contains (r : CapRights) (other : BitVec 16) : Bool := r.bits &&& other == other

end CapRights

/-- `CapError`. -/
inductive CapError
  | invalidCPtr
  | emptySlot
  | rightsEscalation
  | revoked
  | grantChainBroken
  | wrongCapType
  | invalidProcess
  | invalidArgument
  | cspaceFull
  | cnodeFull
  | untypedTooSmall
  | untypedExhausted
  | notImplemented
  deriving DecidableEq, Repr

/-- `DeriveError`, the error type of `derive_cap`. -/
inductive DeriveError
  | rightsEscalation
  | parentRevoked
  | tableFull
  deriving DecidableEq, Repr

/-- A reference to a kernel object with attached rights.  `parentId` is documented as the
parent's index in the derivation table; `mint_cap` and `derive_cap` overwrite it with the
capability's *own* index before they return it. -/
structure Capability where
  objId : Nat
  capType : CapType
  rights : CapRights
  parentId : Option Nat
  deriving DecidableEq, Repr

namespace Capability

/-- A new root capability. -/
def new (objId : Nat) (capType : CapType) (rights : CapRights) : Capability :=
  { objId, capType, rights, parentId := none }

/-- A child capability derived from a parent. -/
def derived (objId : Nat) (capType : CapType) (rights : CapRights) (parentId : Nat) :
    Capability :=
  { objId, capType, rights, parentId := some parentId }

/-- `true` if the capability grants at least `bits`. -/
def hasRights (c : Capability) (bits : BitVec 16) : Bool := c.rights.contains bits

end Capability

end QuackOS.Cap
