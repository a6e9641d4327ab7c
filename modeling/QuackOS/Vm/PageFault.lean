import QuackOS.Mm.Pte
import QuackOS.Vm.Allocator
import QuackOS.Vm.VmaMap
import QuackOS.Vm.Server

/-!
# Page faults

`resolve_page_fault` of `common/src/usr/mm/page_fault.rs`: a fault is looked up in the areas of the
process, the stack is extended down to it if need be, the access is checked, and a page is taken
from the allocator.

* `resolvePageFault` — one fault;
* `Location`, `locate_spec` — the ways the search for the area can end;
* `answerFault_spec` — what becomes of a fault in an area;
* `FaultSound`, `faultSound_iff` — **what is asked of the answer, and exactly when it is met**: the
  reply carries a page number where an address is meant, and a stack that was extended for a fault
  that is then refused stays extended.

A function that may panic returns an `Option`.
-/

namespace QuackOS.Vm

open Mm (PTEFlags)

/-! ## Permissions -/

namespace VmPerms

/-- `VmPerms::R`. -/
def r : VmPerms := ⟨true, false, false⟩

/-- `to_map_flags`. -/
def toMapFlags (p : VmPerms) : BitVec 16 :=
  (if p.read then PTEFlags.R else 0) ||| (if p.write then PTEFlags.W else 0) |||
    (if p.exec then PTEFlags.X else 0) ||| PTEFlags.U

/-- `as_bits`. -/
def asBits (p : VmPerms) : ℕ := p.toMapFlags.toNat

end VmPerms

namespace VmaEntry

/-- `is_guard`. -/
def isGuard (e : VmaEntry) : Bool := e.regionType = .guard

/-- `permits`. -/
def permits (e : VmaEntry) (needs : VmPerms) : Bool :=
  (!needs.read || e.perms.read) && (!needs.write || e.perms.write) && (!needs.exec || e.perms.exec)

end VmaEntry

/-! ## Faults and requests -/

/-- `PageFaultCause`. -/
inductive PageFaultCause
  | load | store | exec
  deriving DecidableEq, Repr

/-- `IpcPageFault`. -/
structure IpcPageFault where
  addrSpaceId : ℕ
  faultVaddr : ℕ
  cause : PageFaultCause

/-- `MmRequest`. -/
inductive MmRequest
  | mapSingle (addrSpaceId vaddr paddr flags : ℕ)
  | unmapSingle (addrSpaceId vaddr : ℕ)
  | grant (srcAsid dstAsid vaddr flags : ℕ)
  | killProcess (pid : ℕ)
  deriving DecidableEq, Repr

/-- `fault_cause_to_perms`. -/
def faultCauseToPerms : PageFaultCause → VmPerms
  | .load => .r
  | .store => .rw
  | .exec => .rx

/-- `vaddr & !(page_size - 1)`. -/
def pageStart (vaddr : ℕ) : ℕ := vaddr - vaddr % 4096

/-! ## The search for the area -/

namespace VmaManager

variable (m : VmaManager)

/-- `find_guard`. -/
def findGuard (vaddr : ℕ) : Option (Option VmaEntry) := do
  return (← m.find vaddr).filter (·.isGuard)

/-- `find_stack_to_extend`. -/
def findStackToExtend (vaddr : ℕ) : Option (Option VmaEntry) := do
  match ← m.find vaddr with
  | some e => return some e
  | none =>
    if maxVmaEntries < m.len then none
    else
      return Slots.lookup m.len m.entries fun e => e.regionType = .stack && vaddr < e.startVaddr

/-- `check_stack_expansion`. -/
def checkStackExpansion (vaddr : ℕ) : Option (VmaManager × Except MmError VmaEntry) := do
  match ← m.findStackToExtend vaddr with
  | none => return (m, .error .noVma)
  | some stack =>
    let expansionStart := pageStart vaddr
    if expansionStart ≥ stack.startVaddr then return (m, .error .noVma)
    else
      match ← m.extendStack expansionStart with
      | (m, .error e) => return (m, .error e)
      | (m, .ok ()) =>
        match ← m.find vaddr with
        | none => return (m, .error .noVma)
        | some e => return (m, .ok e)

/-- The first two steps of `resolve_page_fault`: the area of the address. -/
def locate (vaddr : ℕ) : Option (VmaManager × Except MmError VmaEntry) := do
  match ← m.findGuard vaddr with
  | some _ => return (m, .error .permissionDenied)
  | none =>
    match ← m.find vaddr with
    | some v => return (m, .ok v)
    | none => m.checkStackExpansion vaddr

end VmaManager

/-! ## The answer -/

/-- `try_reclaim`, which is not implemented yet. -/
def tryReclaim : Except Unit Unit := .error ()

/-- `handle_cow_fault`. -/
def handleCowFault (fault : IpcPageFault) (a : Allocator) :
    Option (Allocator × Except MmError MmRequest) := do
  match ← a.allocPage with
  | (none, a) => return (a, .error .outOfMemory)
  | (some paddr, a) =>
    return (a, .ok (.mapSingle fault.addrSpaceId fault.faultVaddr paddr VmPerms.rw.asBits))

/-- `handle_oom`. -/
def handleOom (fault : IpcPageFault) (policy : OomPolicy) (a : Allocator) :
    Option (Allocator × Except MmError MmRequest) :=
  match policy with
  | .kill => some (a, .error .outOfMemory)
  | .reclaim | .reclaimThenKill =>
    match tryReclaim with
    | .error () => some (a, .error .outOfMemory)
    | .ok () => do
      match ← a.allocPage with
      | (none, a) => return (a, .error .outOfMemory)
      | (some paddr, a) =>
        return (a, .ok (.mapSingle fault.addrSpaceId fault.faultVaddr paddr VmPerms.rw.asBits))

/-- The other steps of `resolve_page_fault`: the answer to a fault in the area `vma`. -/
def answerFault (fault : IpcPageFault) (policy : OomPolicy) (vma : VmaEntry) (a : Allocator) :
    Option (Allocator × Except MmError MmRequest) :=
  if !vma.permits (faultCauseToPerms fault.cause) then some (a, .error .permissionDenied)
  else if vma.cow && fault.cause = .store then handleCowFault fault a
  else do
    match ← a.allocPage with
    | (some paddr, a) =>
      return (a, .ok (.mapSingle fault.addrSpaceId fault.faultVaddr paddr vma.perms.asBits))
    | (none, a) => handleOom fault policy a

/-- `resolve_page_fault`. -/
def resolvePageFault (fault : IpcPageFault) (policy : OomPolicy) (m : VmaManager) (a : Allocator) :
    Option (VmaManager × Allocator × Except MmError MmRequest) := do
  match ← m.locate fault.faultVaddr with
  | (m, .error e) => return (m, a, .error e)
  | (m, .ok vma) =>
    let (a, r) ← answerFault fault policy vma a
    return (m, a, r)

/-! ## The ways the search can end -/

open VmaManager

/-- The fault lies outside of all areas and below a stack, and the first stack `x`, behind the
areas `A`, can be extended to its page. -/
structure GrowsIn (L : List VmaEntry) (vaddr : ℕ) (A : List VmaEntry) (x : VmaEntry)
    (B : List VmaEntry) : Prop where
  split : L = A ++ x :: B
  outside : ∀ y ∈ L, y.contains vaddr = false
  stack : x.regionType = .stack
  first : ∀ a ∈ A, a.regionType ≠ .stack
  above : ∃ y ∈ L, y.regionType = .stack ∧ vaddr < y.startVaddr
  below : pageStart vaddr < x.startVaddr
  free : ∀ a ∈ A, a.endVaddr ≤ pageStart vaddr

/-- How the search ends. -/
inductive Location (L : List VmaEntry) (vaddr : ℕ) :
    List VmaEntry → Except MmError VmaEntry → Prop
  | guard {x : VmaEntry} (hx : x ∈ L) (hc : x.contains vaddr = true) (hg : x.isGuard = true) :
      Location L vaddr L (.error .permissionDenied)
  | found {x : VmaEntry} (hx : x ∈ L) (hc : x.contains vaddr = true) (hg : x.isGuard = false) :
      Location L vaddr L (.ok x)
  | outside {e : MmError} (hout : ∀ y ∈ L, y.contains vaddr = false)
      (hnot : ∀ A x B, ¬ GrowsIn L vaddr A x B) : Location L vaddr L (.error e)
  | grown {A B : List VmaEntry} {x : VmaEntry} (hg : GrowsIn L vaddr A x B)
      (hv : vaddr < x.startVaddr) :
      Location L vaddr (A ++ { x with startVaddr := pageStart vaddr } :: B)
        (.ok { x with startVaddr := pageStart vaddr })
  | missed {A B : List VmaEntry} {x : VmaEntry} (hg : GrowsIn L vaddr A x B)
      (hv : x.startVaddr ≤ vaddr) :
      Location L vaddr (A ++ { x with startVaddr := pageStart vaddr } :: B) (.error .noVma)

section Location

variable {m : VmaManager} {L L' A B : List VmaEntry} {x : VmaEntry} {vaddr : ℕ}

/-- The search keeps the order. -/
theorem Location.ordered {r : Except MmError VmaEntry} (h : Location L vaddr L' r)
    (hord : Ordered L) : Ordered L' := by
  have hgrown : ∀ {A x B}, GrowsIn L vaddr A x B →
      Ordered (A ++ { x with startVaddr := pageStart vaddr } :: B) := by
    rintro A x B hg
    obtain ⟨hrest, hx, -, hB⟩ := ordered_middle.mp (hg.split ▸ hord)
    exact ordered_middle.mpr ⟨hrest, Nat.lt_trans hg.below hx, hg.free, hB⟩
  cases h with
  | guard | found | outside => exact hord
  | grown hg | missed hg => exact hgrown hg

theorem pageStart_le (vaddr : ℕ) : pageStart vaddr ≤ vaddr := Nat.sub_le _ _

theorem GrowsIn.contains (hg : GrowsIn L vaddr A x B) (hord : Ordered L)
    (hv : vaddr < x.startVaddr) :
    VmaEntry.contains { x with startVaddr := pageStart vaddr } vaddr = true := by
  have hpage := pageStart_le vaddr
  have hne := hord.nonempty x (by simp [hg.split])
  exact VmaEntry.contains_eq_true.mpr ⟨hpage, by simp only; omega⟩

/-- The extended stack is found again. -/
theorem GrowsIn.find (hg : GrowsIn L vaddr A x B) (hord : Ordered L)
    (hrep : Rep m (A ++ { x with startVaddr := pageStart vaddr } :: B)) (hv : vaddr < x.startVaddr) :
    m.find vaddr = some (some { x with startVaddr := pageStart vaddr }) := by
  have hord' := (Location.grown hg hv).ordered hord
  have hc := hg.contains hord hv
  rcases hrep.find_spec hord' vaddr with ⟨-, -, hall⟩ | ⟨A₁, e, B₁, hL₁, hfind, -, hce⟩
  · have := hall _ (by simp : { x with startVaddr := pageStart vaddr } ∈ _)
    rw [hc] at this
    cases this
  · rw [hfind, hord'.unique (by simp [hL₁]) (by simp) hce hc]

/-- A fault behind the extended stack is in no area either. -/
theorem GrowsIn.find_behind (hg : GrowsIn L vaddr A x B) (hord : Ordered L)
    (hrep : Rep m (A ++ { x with startVaddr := pageStart vaddr } :: B)) (hv : x.startVaddr ≤ vaddr) :
    m.find vaddr = some none := by
  have hord' := (Location.missed hg hv).ordered hord
  have hout : ∀ y ∈ A ++ x :: B, y.contains vaddr = false := hg.split ▸ hg.outside
  rcases hrep.find_spec hord' vaddr with ⟨hfind, -, -⟩ | ⟨A₁, e, B₁, hL₁, -, -, hce⟩
  · exact hfind
  · exfalso
    have hmem : e ∈ A ++ { x with startVaddr := pageStart vaddr } :: B := by simp [hL₁]
    rcases List.mem_append.mp hmem with hmem | hmem
    · rw [hout e (by simp [hmem])] at hce
      cases hce
    · rcases List.mem_cons.mp hmem with rfl | hmem
      · have hxout := VmaEntry.contains_eq_false.mp (hout x (by simp))
        have hce' := VmaEntry.contains_eq_true.mp hce
        simp only at hce'
        omega
      · rw [hout e (by simp [hmem])] at hce
        cases hce

/-- Outside of all areas it is any stack above the address that lets the search go on. -/
theorem findStackToExtend_eq (h : Rep m L) (hfind : m.find vaddr = some none) :
    m.findStackToExtend vaddr = some (Slots.lookup m.len m.entries
      fun e => e.regionType = .stack && vaddr < e.startVaddr) := by
  have hle := h.length_le
  rw [findStackToExtend, hfind, Option.bind_eq_bind, Option.bind_some]
  simp only
  rw [if_neg]
  · rfl
  · rw [h.len_eq]
    omega

theorem expansion_spec (h : Rep m L) (hord : Ordered L) (hfind : m.find vaddr = some none)
    (hout : ∀ y ∈ L, y.contains vaddr = false) :
    Ends (m.checkStackExpansion vaddr) (Location L vaddr) := by
  rw [checkStackExpansion, findStackToExtend_eq h hfind, Option.bind_eq_bind, Option.bind_some]
  rcases h.slotsPosition fun e => e.regionType = .stack && vaddr < e.startVaddr with
    ⟨hpos, hall⟩ | ⟨A₀, s, B₀, hL, hpos, hs, -⟩
  · rw [Slots.lookup_eq_none.mpr hpos]
    refine ⟨m, _, L, rfl, h, .outside hout ?_⟩
    rintro A x B ⟨-, -, -, -, ⟨y, hy, hyt, hyv⟩, -, -⟩
    have := hall y hy
    simp [hyt, hyv] at this
  · have hslot : m.entries A₀.length = some s := by
      rw [h.slots, hL, List.getElem?_append_right le_rfl, Nat.sub_self]
      rfl
    rw [Slots.lookup_of_position hpos, hslot]
    simp only [Bool.and_eq_true, decide_eq_true_eq] at hs
    have hsL : s ∈ L := by simp [hL]
    have hpage := pageStart_le vaddr
    simp only
    rw [if_neg (by omega)]
    obtain ⟨m', r, L', hrun, hrep', hends⟩ := h.extendStack_spec hord (pageStart vaddr)
    rw [hrun]
    simp only [Option.bind_eq_bind, Option.bind_some]
    cases hends with
    | noStack hno => exact absurd hs.1 (hno s hsL)
    | above hL' hx hfirst hle' =>
      refine ⟨m', _, L, rfl, hrep', .outside hout ?_⟩
      rintro A x B ⟨hsplit, -, hxs, hA, -, hbelow, -⟩
      obtain ⟨-, rfl, -⟩ := first_unique (hL' ▸ hsplit) hx hfirst hxs hA
      omega
    | blocked hL' hx hfirst hlt hy hend =>
      refine ⟨m', _, L, rfl, hrep', .outside hout ?_⟩
      rintro A x B ⟨hsplit, -, hxs, hA, -, -, hfree⟩
      obtain ⟨rfl, -, -⟩ := first_unique (hL' ▸ hsplit) hx hfirst hxs hA
      have := hfree _ hy
      omega
    | @grown A B x hL' hx hfirst hlt hA =>
      have hg : GrowsIn L vaddr A x B :=
        ⟨hL', hout, hx, hfirst, ⟨s, hsL, hs⟩, hlt, hA⟩
      simp only
      rcases Nat.lt_or_ge vaddr x.startVaddr with hv | hv
      · rw [hg.find hord hrep' hv, Option.bind_some]
        exact ⟨m', _, _, rfl, hrep', .grown hg hv⟩
      · rw [hg.find_behind hord hrep' hv, Option.bind_some]
        exact ⟨m', _, _, rfl, hrep', .missed hg hv⟩

/-- **The search for the area.** -/
theorem locate_spec (h : Rep m L) (hord : Ordered L) (vaddr : ℕ) :
    Ends (m.locate vaddr) (Location L vaddr) := by
  rcases h.find_spec hord vaddr with ⟨hfind, -, hout⟩ | ⟨A, e, B, rfl, hfind, -, hc⟩
  · have hguard : m.findGuard vaddr = some none := by
      rw [findGuard, hfind]
      rfl
    rw [locate, hguard, Option.bind_eq_bind, Option.bind_some, hfind]
    exact expansion_spec h hord hfind hout
  · cases hg : e.isGuard with
    | true =>
      have hguard : m.findGuard vaddr = some (some e) := by
        rw [findGuard, hfind, Option.bind_eq_bind, Option.bind_some, Option.filter_some, hg]
        rfl
      rw [locate, hguard]
      exact ⟨m, _, _, rfl, h, .guard (x := e) (by simp) hc hg⟩
    | false =>
      have hguard : m.findGuard vaddr = some none := by
        rw [findGuard, hfind, Option.bind_eq_bind, Option.bind_some, Option.filter_some, hg]
        rfl
      rw [locate, hguard, Option.bind_eq_bind, Option.bind_some, hfind]
      exact ⟨m, _, _, rfl, h, .found (by simp) hc hg⟩

end Location

/-! ## What becomes of a fault in an area -/

/-- The flags of the reply. -/
def replyFlags (vma : VmaEntry) (cause : PageFaultCause) : ℕ :=
  if vma.cow && cause = .store then VmPerms.rw.asBits else vma.perms.asBits

section Answer

variable {a : Allocator} {out : List (ℕ × ℕ)} {fault : IpcPageFault} {policy : OomPolicy}
  {vma : VmaEntry}

/-- Without a page, every policy gives up. -/
theorem handleOom_eq (fault : IpcPageFault) (policy : OomPolicy) (a : Allocator) :
    handleOom fault policy a = some (a, .error .outOfMemory) := by
  cases policy <;> rfl

theorem answerFault_refused (h : vma.permits (faultCauseToPerms fault.cause) = false) :
    answerFault fault policy vma a = some (a, .error .permissionDenied) := by
  rw [answerFault, h]
  rfl

/-- An access that is permitted takes a page and maps it, or fails because there is none. -/
theorem answerFault_spec (h : a.HandedOut out)
    (hp : vma.permits (faultCauseToPerms fault.cause) = true) :
    (∃ p a', a.nextPage = some p ∧ a'.HandedOut ((p, 0) :: out) ∧ a'.basePaddr = a.basePaddr ∧
      a'.totalPages = a.totalPages ∧ answerFault fault policy vma a = some (a', .ok
        (.mapSingle fault.addrSpaceId fault.faultVaddr p (replyFlags vma fault.cause)))) ∨
    (a.nextPage = none ∧ (∀ q, ¬ a.Free q) ∧
      answerFault fault policy vma a = some (a, .error .outOfMemory)) := by
  rw [answerFault, hp]
  simp only [Bool.not_true, Bool.false_eq_true, if_false]
  rcases h.allocPage with ⟨p, a', halloc, hout, hbase, htotal⟩ | ⟨halloc, hnone⟩
  · refine Or.inl ⟨p, a', by rw [Allocator.nextPage, halloc]; rfl, hout, hbase, htotal, ?_⟩
    rw [replyFlags]
    split
    · rw [handleCowFault, halloc]
      rfl
    · rw [halloc]
      rfl
  · refine Or.inr ⟨by rw [Allocator.nextPage, halloc]; rfl, hnone, ?_⟩
    split
    · rw [handleCowFault, halloc]
      rfl
    · rw [halloc]
      exact handleOom_eq fault policy a

/-- The flags of the reply are the area's, but for a store to a copy-on-write area that can be
executed. -/
theorem replyFlags_eq_iff {cause : PageFaultCause} (hp : vma.permits (faultCauseToPerms cause) = true) :
    replyFlags vma cause = vma.perms.asBits ↔
      (vma.cow = true → cause = .store → vma.perms.exec = false) := by
  unfold replyFlags
  cases hcow : vma.cow with
  | false => simp
  | true =>
    cases cause with
    | load | exec => simp
    | store =>
      obtain ⟨⟨hr, hw⟩, -⟩ : (vma.perms.read = true ∧ vma.perms.write = true) ∧ True := by
        simpa [VmaEntry.permits, faultCauseToPerms, VmPerms.rw] using hp
      have hperms : vma.perms = ⟨true, true, vma.perms.exec⟩ :=
        calc vma.perms = ⟨vma.perms.read, vma.perms.write, vma.perms.exec⟩ := rfl
          _ = ⟨true, true, vma.perms.exec⟩ := by rw [hr, hw]
      rw [hperms]
      cases vma.perms.exec with
      | false => exact iff_of_true rfl fun _ _ => rfl
      | true => exact iff_of_false (by decide) fun h => nomatch h rfl rfl

end Answer

/-! ## Sound answers -/

/-- The address is that of a page that goes out from `a` to `a'`. -/
def HandsOut (a a' : Allocator) (paddr : ℕ) : Prop :=
  ∃ p, a.Takes a' p ∧ p < a.totalPages ∧ paddr = a.basePaddr + 4096 * p ∧ paddr % 4096 = 0

/-- What is asked of the answer to a fault: a page is mapped with the permissions of an area that
permits the access, at the address of a page that was free; and a fault that is refused changes
neither areas nor pages. -/
def FaultSound (fault : IpcPageFault) (policy : OomPolicy) (m : VmaManager) (a : Allocator) : Prop :=
  ∃ m' a' r, resolvePageFault fault policy m a = some (m', a', r) ∧
    (∀ asid vaddr paddr flags, r = .ok (.mapSingle asid vaddr paddr flags) →
      ∃ x, m'.Has x ∧ x.contains fault.faultVaddr = true ∧ x.isGuard = false ∧
        x.permits (faultCauseToPerms fault.cause) = true ∧ vaddr = fault.faultVaddr ∧
        flags = x.perms.asBits ∧ HandsOut a a' paddr) ∧
    ∀ e, r = .error e → m' = m ∧ a.TakesNothing a'

/-- The stack `x` is extended for a fault at the address. -/
def Grows (m : VmaManager) (vaddr : ℕ) (x : VmaEntry) : Prop :=
  (∀ y, m.Has y → y.contains vaddr = false) ∧ m.IsFirst .stack x ∧
    (∃ y, m.Has y ∧ y.regionType = .stack ∧ vaddr < y.startVaddr) ∧
    pageStart vaddr < x.startVaddr ∧
    ∀ y, m.Has y → y.startVaddr < x.startVaddr → y.endVaddr ≤ pageStart vaddr

/-- The condition of a fault. -/
structure FaultFits (fault : IpcPageFault) (m : VmaManager) (a : Allocator) : Prop where
  /-- A stack that is extended lies behind the fault and permits the access, and there is a page. -/
  grows : ∀ x, Grows m fault.faultVaddr x → fault.faultVaddr < x.startVaddr ∧
    x.permits (faultCauseToPerms fault.cause) = true ∧ a.nextPage ≠ none
  /-- The page that goes out for a permitted access is page 0 of memory that starts at address 0,
  and it does not go to a store to a copy-on-write area that can be executed. -/
  served : ∀ x p, (m.Has x ∧ x.contains fault.faultVaddr = true ∧ x.isGuard = false) ∨
      Grows m fault.faultVaddr x → x.permits (faultCauseToPerms fault.cause) = true →
    a.nextPage = some p → a.basePaddr = 0 ∧ p = 0 ∧
      (x.cow = true → fault.cause = .store → x.perms.exec = false)

section Sound

variable {fault : IpcPageFault} {policy : OomPolicy} {m m' : VmaManager} {a a' : Allocator}
  {out : List (ℕ × ℕ)} {L : List VmaEntry} {vaddr p : ℕ}

theorem grows_iff (h : Rep m L) (hord : Ordered L) {x : VmaEntry} :
    Grows m vaddr x ↔ ∃ A B, GrowsIn L vaddr A x B := by
  unfold Grows
  simp only [h.has_iff, h.isFirst_iff]
  constructor
  · rintro ⟨hout, ⟨A, B, rfl, hx, hfirst⟩, habove, hbelow, hfree⟩
    refine ⟨A, B, rfl, hout, hx, hfirst, habove, hbelow, fun y hy => ?_⟩
    obtain ⟨hrest, -, hA, -⟩ := ordered_middle.mp hord
    refine hfree y (by simp [hy]) ?_
    have h1 := hA y hy
    have h2 := hrest.nonempty y (by simp [hy])
    omega
  · rintro ⟨A, B, rfl, hout, hx, hfirst, habove, hbelow, hfree⟩
    refine ⟨hout, ⟨A, B, rfl, hx, hfirst⟩, habove, hbelow, fun y hy hlt => ?_⟩
    obtain ⟨-, hne, -, hB⟩ := ordered_middle.mp hord
    rcases List.mem_append.mp hy with hy | hy
    · exact hfree y hy
    · rcases List.mem_cons.mp hy with rfl | hy
      · omega
      · have := hB y hy
        omega

theorem GrowsIn.unique {A A' B B' : List VmaEntry} {x y : VmaEntry} (h : GrowsIn L vaddr A x B)
    (h' : GrowsIn L vaddr A' y B') : x = y :=
  (first_unique (h.split ▸ h'.split) h.stack h.first h'.stack h'.first).2.1

/-- The page that was handed out is the one whose number is the reply's address. -/
theorem handsOut_iff (h : a.HandedOut out) (h' : a'.HandedOut ((p, 0) :: out))
    (htotal : a'.totalPages = a.totalPages) : HandsOut a a' p ↔ a.basePaddr = 0 ∧ p = 0 := by
  have htakes := h.takes h' htotal
  constructor
  · rintro ⟨q, ⟨hq, hq', -⟩, -, heq, -⟩
    have hqp : q = p := by
      by_contra hne
      exact hq' ((htakes.2.2 q hne).mpr hq)
    omega
  · rintro ⟨hbase, rfl⟩
    refine ⟨0, htakes, (h.free_iff.mp htakes.1).1, ?_, rfl⟩
    rw [hbase]

/-- What is asked of the answer to a permitted access in the area `x`, which is in the table. -/
theorem faultSound_served (ha : a.HandedOut out) (ha' : a'.HandedOut ((p, 0) :: out))
    (htotal : a'.totalPages = a.totalPages) (hrep : Rep m' L) (hord : Ordered L) {x : VmaEntry}
    (hx : x ∈ L) (hc : x.contains fault.faultVaddr = true) (hg : x.isGuard = false)
    (hp : x.permits (faultCauseToPerms fault.cause) = true)
    (hrun : resolvePageFault fault policy m a = some (m', a', .ok (.mapSingle fault.addrSpaceId
      fault.faultVaddr p (replyFlags x fault.cause)))) :
    FaultSound fault policy m a ↔ a.basePaddr = 0 ∧ p = 0 ∧
      (x.cow = true → fault.cause = .store → x.perms.exec = false) := by
  rw [← and_assoc, ← handsOut_iff ha ha' htotal, ← replyFlags_eq_iff hp]
  unfold FaultSound
  rw [hrun]
  constructor
  · rintro ⟨m₁, a₁, r, heq, hok, -⟩
    cases heq
    obtain ⟨y, hy, hcy, -, -, -, hflags, hhands⟩ := hok _ _ _ _ rfl
    rw [hord.unique (hrep.has_iff.mp hy) hx hcy hc] at hflags
    exact ⟨hhands, hflags⟩
  · rintro ⟨hhands, hflags⟩
    refine ⟨m', a', _, rfl, fun asid vaddr paddr flags hr => ?_, fun e he => nomatch he⟩
    cases hr
    exact ⟨x, hrep.has_iff.mpr hx, hc, hg, hp, rfl, hflags, hhands⟩

/-- A fault that is refused is answered well when it leaves areas and allocator alone. -/
theorem faultSound_refused {e : MmError}
    (hrun : resolvePageFault fault policy m a = some (m', a, .error e)) :
    FaultSound fault policy m a ↔ m' = m := by
  unfold FaultSound
  rw [hrun]
  constructor
  · rintro ⟨m₁, a₁, r, heq, -, herr⟩
    cases heq
    exact (herr e rfl).1
  · rintro rfl
    exact ⟨m', a, _, rfl, fun _ _ _ _ hr => (nomatch hr), fun _ _ => ⟨rfl, fun _ => Iff.rfl⟩⟩

theorem faultSound_of_error {e : MmError} (h : m.locate fault.faultVaddr = some (m', .error e)) :
    FaultSound fault policy m a ↔ m' = m := by
  refine @faultSound_refused _ _ _ _ _ e ?_
  rw [resolvePageFault, h]
  rfl

theorem resolve_of_ok {x : VmaEntry} {r : Except MmError MmRequest}
    (h : m.locate fault.faultVaddr = some (m', .ok x))
    (hans : answerFault fault policy x a = some (a', r)) :
    resolvePageFault fault policy m a = some (m', a', r) := by
  rw [resolvePageFault, h]
  simp only [Option.bind_eq_bind, Option.bind_some, hans]
  rfl

/-- In an area that does not permit the access nothing is taken. -/
theorem faultSound_forbidden {x : VmaEntry} (h : m.locate fault.faultVaddr = some (m', .ok x))
    (hp : x.permits (faultCauseToPerms fault.cause) = false) :
    FaultSound fault policy m a ↔ m' = m :=
  faultSound_refused (resolve_of_ok h (answerFault_refused hp))

/-- In an area that permits it, the page that goes out decides, if there is one. -/
theorem faultSound_permitted (ha : a.HandedOut out) {x : VmaEntry}
    (h : m.locate fault.faultVaddr = some (m', .ok x)) (hrep : Rep m' L) (hord : Ordered L)
    (hx : x ∈ L) (hc : x.contains fault.faultVaddr = true) (hg : x.isGuard = false)
    (hp : x.permits (faultCauseToPerms fault.cause) = true) :
    (∃ p, a.nextPage = some p ∧ (FaultSound fault policy m a ↔ a.basePaddr = 0 ∧ p = 0 ∧
      (x.cow = true → fault.cause = .store → x.perms.exec = false))) ∨
    a.nextPage = none ∧ (FaultSound fault policy m a ↔ m' = m) := by
  rcases @answerFault_spec a out fault policy x ha hp with
    ⟨p, a', hnext, ha', -, htotal, hans⟩ | ⟨hnext, -, hans⟩
  · exact Or.inl ⟨p, hnext,
      faultSound_served ha ha' htotal hrep hord hx hc hg hp (resolve_of_ok h hans)⟩
  · exact Or.inr ⟨hnext, faultSound_refused (resolve_of_ok h hans)⟩

/-- The area that a fault at the address is about: one that it lies in, or a stack that is extended
for it. -/
def Concerned (m : VmaManager) (vaddr : ℕ) (x : VmaEntry) : Prop :=
  (m.Has x ∧ x.contains vaddr = true ∧ x.isGuard = false) ∨ Grows m vaddr x

theorem FaultFits.of_none (h : ∀ x, ¬ Concerned m fault.faultVaddr x) : FaultFits fault m a :=
  ⟨fun x hx => absurd (Or.inr hx) (h x), fun x _ hx => absurd hx (h x)⟩

/-- Where there is one such area, the condition is about it. -/
theorem faultFits_iff {x : VmaEntry} (hx : Concerned m fault.faultVaddr x)
    (honly : ∀ y, Concerned m fault.faultVaddr y → y = x) :
    FaultFits fault m a ↔
      (Grows m fault.faultVaddr x → fault.faultVaddr < x.startVaddr ∧
        x.permits (faultCauseToPerms fault.cause) = true ∧ a.nextPage ≠ none) ∧
      (x.permits (faultCauseToPerms fault.cause) = true → ∀ p, a.nextPage = some p →
        a.basePaddr = 0 ∧ p = 0 ∧
          (x.cow = true → fault.cause = .store → x.perms.exec = false)) := by
  constructor
  · exact fun h => ⟨h.grows x, fun hp p => h.served x p hx hp⟩
  · rintro ⟨hgrows, hserved⟩
    refine ⟨fun y hy => ?_, fun y p hy => ?_⟩
    · obtain rfl := honly y (Or.inr hy)
      exact hgrows hy
    · obtain rfl := honly y hy
      exact fun hp => hserved hp p

/-- The address lies in an area that is not a guard. -/
theorem faultSound_iff_found (ha : a.HandedOut out) (hrep : Rep m L) (hord : Ordered L)
    {x : VmaEntry} (h : m.locate fault.faultVaddr = some (m, .ok x)) (hx : x ∈ L)
    (hc : x.contains fault.faultVaddr = true) (hg : x.isGuard = false) :
    FaultSound fault policy m a ↔ FaultFits fault m a := by
  have hgrow : ∀ y, ¬ Grows m fault.faultVaddr y := by
    intro y hy
    rw [hy.1 x (hrep.has_iff.mpr hx)] at hc
    cases hc
  have honly : ∀ y, Concerned m fault.faultVaddr y → y = x := by
    rintro y (⟨hy, hcy, -⟩ | hy)
    · exact hord.unique (hrep.has_iff.mp hy) hx hcy hc
    · exact absurd hy (hgrow y)
  rw [faultFits_iff (Or.inl ⟨hrep.has_iff.mpr hx, hc, hg⟩) honly]
  cases hp : x.permits (faultCauseToPerms fault.cause) with
  | false =>
    refine iff_of_true ((faultSound_forbidden h hp).mpr rfl) ⟨fun hy => absurd hy (hgrow x), ?_⟩
    intro htrue
    cases htrue
  | true =>
    rcases faultSound_permitted ha h hrep hord hx hc hg hp with ⟨p, hnext, hiff⟩ | ⟨hnext, hiff⟩
    · rw [hiff, hnext]
      constructor
      · intro hserved
        refine ⟨fun hy => absurd hy (hgrow x), fun _ q hq => ?_⟩
        obtain rfl := Option.some.inj hq
        exact hserved
      · exact fun hfits => hfits.2 rfl p rfl
    · refine iff_of_true (hiff.mpr rfl) ⟨fun hy => absurd hy (hgrow x), fun _ p hq => ?_⟩
      rw [hnext] at hq
      cases hq

/-- A stack that was extended is not what it was. -/
theorem GrowsIn.ne {A B : List VmaEntry} {x : VmaEntry} (hg : GrowsIn L vaddr A x B)
    (hrep : Rep m L)
    (hrep' : Rep m' (A ++ { x with startVaddr := pageStart vaddr } :: B)) : m' ≠ m := by
  refine (hg.split ▸ hrep).ne_of_set hrep' fun heq => ?_
  have hstart := congrArg VmaEntry.startVaddr heq
  have := hg.below
  simp only at hstart
  omega

/-- A stack was extended to the page of the address, and the address lies in it now. -/
theorem faultSound_iff_grown (ha : a.HandedOut out) (hrep : Rep m L) (hord : Ordered L)
    {A B : List VmaEntry} {x : VmaEntry} (hg : GrowsIn L fault.faultVaddr A x B)
    (hv : fault.faultVaddr < x.startVaddr)
    (h : m.locate fault.faultVaddr =
      some (m', .ok { x with startVaddr := pageStart fault.faultVaddr }))
    (hrep' : Rep m' (A ++ { x with startVaddr := pageStart fault.faultVaddr } :: B)) :
    FaultSound fault policy m a ↔ FaultFits fault m a := by
  have hgrow : Grows m fault.faultVaddr x := (grows_iff hrep hord).mpr ⟨A, B, hg⟩
  have hne : m' ≠ m := hg.ne hrep hrep'
  have honly : ∀ y, Concerned m fault.faultVaddr y → y = x := by
    rintro y (⟨hy, hcy, -⟩ | hy)
    · rw [hg.outside y (hrep.has_iff.mp hy)] at hcy
      cases hcy
    · obtain ⟨A', B', hg'⟩ := (grows_iff hrep hord).mp hy
      exact hg'.unique hg
  rw [faultFits_iff (Or.inr hgrow) honly]
  cases hp : x.permits (faultCauseToPerms fault.cause) with
  | false =>
    refine iff_of_false (fun hsound => hne ((faultSound_forbidden h hp).mp hsound)) fun hfits => ?_
    cases (hfits.1 hgrow).2.1
  | true =>
    have hord' := Location.ordered (.grown hg hv) hord
    have hguard : VmaEntry.isGuard { x with startVaddr := pageStart fault.faultVaddr } = false := by
      simp [VmaEntry.isGuard, hg.stack]
    rcases faultSound_permitted ha h hrep' hord' (by simp) (hg.contains hord hv) hguard hp with
      ⟨p, hnext, hiff⟩ | ⟨hnext, hiff⟩
    · rw [hiff, hnext]
      constructor
      · intro hserved
        refine ⟨fun _ => ⟨hv, rfl, Option.some_ne_none p⟩, fun _ q hq => ?_⟩
        obtain rfl := Option.some.inj hq
        exact hserved
      · exact fun hfits => hfits.2 rfl p rfl
    · refine iff_of_false (fun hsound => hne (hiff.mp hsound)) fun hfits => ?_
      exact (hfits.1 hgrow).2.2 hnext

/-- **A fault is answered as it should be exactly when it fits**, from any table and any state of
the allocator. -/
theorem faultSound_iff (h : TableOk m) (ha : a.HandedOut out) (fault : IpcPageFault)
    (policy : OomPolicy) : FaultSound fault policy m a ↔ FaultFits fault m a := by
  obtain ⟨L, hrep, hord⟩ := h.holds
  obtain ⟨m', r, L', hrun, hrep', hloc⟩ := locate_spec hrep hord fault.faultVaddr
  cases hloc with
  | @guard x hx hc hg =>
    obtain rfl := hrep'.unique hrep
    refine iff_of_true ((faultSound_of_error hrun).mpr rfl) (.of_none ?_)
    rintro y (⟨hy, hcy, hgy⟩ | hy)
    · rw [hord.unique (hrep.has_iff.mp hy) hx hcy hc, hg] at hgy
      cases hgy
    · rw [hy.1 x (hrep.has_iff.mpr hx)] at hc
      cases hc
  | @found x hx hc hg =>
    obtain rfl := hrep'.unique hrep
    exact faultSound_iff_found ha hrep hord hrun hx hc hg
  | @outside e hout hnot =>
    obtain rfl := hrep'.unique hrep
    refine iff_of_true ((faultSound_of_error hrun).mpr rfl) (.of_none ?_)
    rintro y (⟨hy, hcy, -⟩ | hy)
    · rw [hout y (hrep.has_iff.mp hy)] at hcy
      cases hcy
    · obtain ⟨A, B, hin⟩ := (grows_iff hrep hord).mp hy
      exact hnot A y B hin
  | @missed A B x hg hv =>
    have hgrow : Grows m fault.faultVaddr x := (grows_iff hrep hord).mpr ⟨A, B, hg⟩
    refine iff_of_false (fun hsound => ?_) fun hfits => ?_
    · exact hg.ne hrep hrep' ((faultSound_of_error hrun).mp hsound)
    · exact absurd (hfits.grows x hgrow).1 (Nat.not_lt.mpr hv)
  | grown hg hv => exact faultSound_iff_grown ha hrep hord hg hv hrun hrep'

end Sound

/-! ## Memory of six pages at 2 GiB -/

/-- The allocator of one page at address 0. -/
def onePage : Allocator := (Allocator.init 0 4096).getD ⟨none, 0, []⟩

theorem handedOut_onePage : onePage.HandedOut [] := by
  obtain ⟨a, ha, hout⟩ := Allocator.handedOut_init 0 4096
  rw [onePage, ha]
  exact hout

/-- A load from a data area, with one page at address 0. -/
theorem faultSound_iff_load :
    FaultSound ⟨1, 0x1800, .load⟩ .kill (oneArea (dataArea 0x1000 0x3000)) onePage := by
  refine (faultSound_iff (tableOk_oneArea (by decide)) handedOut_onePage _ _).mpr ⟨fun x hx => ?_, ?_⟩
  · have := hx.1 _ (has_oneArea.mpr rfl)
    exact absurd this (by decide)
  · intro x p hx _ hp
    have hnext : onePage.nextPage = some 0 := by decide
    rw [hnext, Option.some_inj] at hp
    refine ⟨rfl, hp.symm, fun _ h => nomatch h⟩

/-- The allocator of six pages from 2 GiB on. -/
def sixPages : Allocator := (Allocator.init 0x80000000 0x6000).getD ⟨none, 0, []⟩

/-- **The reply has the number of the page where its address is asked for**; and a fetch below the
stack, which is refused, leaves the stack extended. -/
theorem reply_is_page_number :
    (∃ m a, resolvePageFault ⟨1, 0x1800, .load⟩ .kill (oneArea (dataArea 0x1000 0x3000)) sixPages =
      some (m, a, .ok (.mapSingle 1 0x1800 3 22))) ∧
    ¬ FaultSound ⟨1, 0x1800, .load⟩ .kill (oneArea (dataArea 0x1000 0x3000)) sixPages ∧
    ∃ m a, resolvePageFault ⟨1, 0x1800, .exec⟩ .kill (oneArea (.newStack 0x4000 0x5000)) sixPages =
      some (m, a, .error .permissionDenied) ∧ m.entries 0 = some (.newStack 0x1000 0x5000) := by
  have hrun : ∃ m a, resolvePageFault ⟨1, 0x1800, .load⟩ .kill
      (oneArea (dataArea 0x1000 0x3000)) sixPages = some (m, a, .ok (.mapSingle 1 0x1800 3 22)) :=
    ⟨_, _, rfl⟩
  refine ⟨hrun, ?_, _, _, rfl, rfl⟩
  rintro ⟨m, a, r, hres, hok, -⟩
  obtain ⟨m', a', hrun⟩ := hrun
  rw [hrun] at hres
  cases hres
  -- no page of this memory has an address below 2 GiB
  obtain ⟨-, -, -, -, -, -, -, p, -, -, heq, -⟩ := hok _ _ _ _ rfl
  have hbase : sixPages.basePaddr = 0x80000000 := rfl
  rw [hbase] at heq
  omega

end QuackOS.Vm
