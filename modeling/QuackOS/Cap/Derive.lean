import Mathlib.Data.Finset.Card
import Mathlib.Logic.Relation
import Mathlib.Logic.Function.Basic
import QuackOS.Cap.Basic
import QuackOS.Lib.Run

/-!
# The derivation tree: mint, derive, revoke

The model of `kernel/cap/derive.rs`.  The global `DERIVE_TABLE` is passed explicitly, so an
operation returns its result together with the table it leaves behind — also when it fails,
because `alloc_id` and `insert` have then already run.

`revoke_recursive` and `check_chain_recursive` follow links stored in the table, so neither
is bounded by its own text.  Both take a `fuel` argument here and answer `none` when it runs
out; `revokeRecursive_isSome` and `checkChain_isSome` say when it does not.
-/

namespace QuackOS.Cap

/-- Maximum number of tracked capability derivations. -/
def maxDerivations : Nat := 256

/-- Maximum children per capability. -/
def maxChildren : Nat := 16

/-- A node in the global derivation tree. -/
structure DeriveEntry where
  cap : Capability
  parent : Option Nat
  revoked : Bool
  children : Nat → Option Nat
  childCount : Nat
  owner : ProcessId

/-- `DeriveEntry::new`. -/
def DeriveEntry.new (cap : Capability) (parent : Option Nat) (owner : ProcessId) :
    DeriveEntry :=
  { cap, parent, revoked := false, children := fun _ => none, childCount := 0, owner }

/-- The global derivation table.  `entries` is the 256-slot array, `nextId` a `usize`. -/
structure DeriveTable where
  entries : Nat → Option DeriveEntry
  nextId : Nat

namespace DeriveTable

/-- `DeriveTable::new`. -/
def new : DeriveTable := { entries := fun _ => none, nextId := 0 }

/-- `alloc_id`: the next index, and the counter wraps at the width of `usize`. -/
def allocId (t : DeriveTable) : Nat × DeriveTable :=
  (t.nextId, { t with nextId := (t.nextId + 1) % 2 ^ 64 })

/-- `insert`: the index is consumed whether or not the entry fits. -/
def insert (t : DeriveTable) (entry : DeriveEntry) : Option Nat × DeriveTable :=
  let (id, t) := t.allocId
  if maxDerivations ≤ id then (none, t)
  else (some id, { t with entries := Function.update t.entries id (some entry) })

/-- `get`. -/
def get (t : DeriveTable) (id : Nat) : Option DeriveEntry :=
  if id < maxDerivations then t.entries id else none

/-- Write an entry back through `get_mut`. -/
def put (t : DeriveTable) (id : Nat) (entry : DeriveEntry) : DeriveTable :=
  { t with entries := Function.update t.entries id (some entry) }

/-- `add_child`. -/
def addChild (t : DeriveTable) (parentId childId : Nat) : Except CapError Unit × DeriveTable :=
  match t.get parentId with
  | none => (.error .invalidCPtr, t)
  | some parent =>
      if maxChildren ≤ parent.childCount then (.error .cnodeFull, t)
      else
        (.ok (), t.put parentId
          { parent with
            children := Function.update parent.children parent.childCount (some childId)
            childCount := parent.childCount + 1 })

end DeriveTable

/-- `mint_cap`: the returned capability carries its own table index in `parentId`, the copy
stored in the table does not. -/
def mintCap (t : DeriveTable) (objId : Nat) (capType : CapType) (rights : CapRights)
    (owner : ProcessId) : Except CapError Capability × DeriveTable :=
  let cap := Capability.new objId capType rights
  match t.insert (DeriveEntry.new cap none owner) with
  | (none, t) => (.error .cnodeFull, t)
  | (some capId, t) => (.ok { cap with parentId := some capId }, t)

/-- `derive_cap`.  When the parent already has `MAX_CHILDREN` children the child's entry has
been inserted before `add_child` refuses it, and it stays in the table. -/
def deriveCap (t : DeriveTable) (parent : Capability) (newRights : CapRights)
    (owner : ProcessId) : Except DeriveError Capability × DeriveTable :=
  if !parent.rights.contains newRights.bits then (.error .rightsEscalation, t)
  else
    match parent.parentId with
    | none => (.error .parentRevoked, t)
    | some parentId =>
        match t.get parentId with
        | none => (.error .parentRevoked, t)
        | some parentEntry =>
            if parentEntry.revoked then (.error .parentRevoked, t)
            else
              let child := Capability.derived parent.objId parent.capType newRights parentId
              match t.insert (DeriveEntry.new child (some parentId) owner) with
              | (none, t) => (.error .tableFull, t)
              | (some childId, t) =>
                  match t.addChild parentId childId with
                  | (.error _, t) => (.error .tableFull, t)
                  | (.ok (), t) => (.ok { child with parentId := some childId }, t)

/-- The `for` loop of `revoke_recursive` over the saved child array; `rec` is the recursive
call. -/
def revokeChildren (rec : DeriveTable → Nat → Option (Nat × DeriveTable)) :
    List (Option Nat) → Nat × DeriveTable → Option (Nat × DeriveTable)
  | [], acc => some acc
  | none :: cs, acc => revokeChildren rec cs acc
  | some c :: cs, acc =>
      match rec acc.2 c with
      | none => none
      | some (n, t) => revokeChildren rec cs (acc.1 + n, t)

/-- `revoke_recursive`: the count of newly revoked entries and the table left behind. -/
def revokeRecursive : Nat → DeriveTable → Nat → Option (Nat × DeriveTable)
  | 0, _, _ => none
  | fuel + 1, t, id =>
      match t.get id with
      | none => some (0, t)
      | some entry =>
          if entry.revoked then some (0, t)
          else
            revokeChildren (fun t c => revokeRecursive fuel t c)
              ((List.range entry.childCount).map entry.children)
              (1, t.put id { entry with revoked := true })

/-- `revoke`, with the recursion given `fuel` levels. -/
def revoke (fuel : Nat) (t : DeriveTable) (cap : Capability) :
    Option (Except CapError Nat × DeriveTable) :=
  match cap.parentId with
  | none => some (.error .invalidCPtr, t)
  | some capId => (revokeRecursive fuel t capId).map fun r => (.ok r.1, r.2)

/-- `check_chain_recursive`: the `while let` walk from `id` to the root. -/
def checkChainRecursive : Nat → DeriveTable → Nat → Option (Except CapError Unit)
  | 0, _, _ => none
  | fuel + 1, t, id =>
      match t.get id with
      | none => some (.error .invalidCPtr)
      | some entry =>
          if entry.revoked then some (.error .grantChainBroken)
          else
            match entry.parent with
            | none => some (.ok ())
            | some p => checkChainRecursive fuel t p

/-- `check_grant_chain`, with the walk given `fuel` steps. -/
def checkGrantChain (fuel : Nat) (t : DeriveTable) (cap : Capability) :
    Option (Except CapError Unit) :=
  match cap.parentId with
  | none => some (.error .invalidCPtr)
  | some capId => checkChainRecursive fuel t capId

/-! ## Reading the table -/

namespace DeriveTable

/-- The revoked flag at an index; unused indices count as not revoked. -/
def isRevoked (t : DeriveTable) (id : Nat) : Bool := (t.get id).any (·.revoked)

/-- `ParentLink t d p`: the entry at `d` records `p` as its parent. -/
def ParentLink (t : DeriveTable) (d p : Nat) : Prop :=
  ∃ e, t.get d = some e ∧ e.parent = some p

/-- `Derived t c d`: the entry at `d` is the one at `c`, or was derived from it through
any number of `derive_cap` calls. -/
def Derived (t : DeriveTable) (c d : Nat) : Prop := Relation.ReflTransGen t.ParentLink d c

/-- `ChildLink t i c`: `c` stands in the used part of the child array of the entry at `i`. -/
def ChildLink (t : DeriveTable) (i c : Nat) : Prop :=
  ∃ e k, t.get i = some e ∧ k < e.childCount ∧ e.children k = some c

/-- The used indices whose entry is not revoked. -/
def live (t : DeriveTable) : Finset Nat :=
  (Finset.range maxDerivations).filter fun i => (t.get i).any fun e => !e.revoked

theorem get_put (t : DeriveTable) (id i : Nat) (e : DeriveEntry) (h : id < maxDerivations) :
    (t.put id e).get i = if i = id then some e else t.get i := by
  unfold get put
  by_cases hi : i = id
  · subst hi
    simp [h]
  · simp [hi]

theorem lt_of_get {t : DeriveTable} {id : Nat} {e : DeriveEntry} (h : t.get id = some e) :
    id < maxDerivations := by
  unfold get at h
  split at h
  · assumption
  · cases h

theorem mem_live {t : DeriveTable} {i : Nat} :
    i ∈ t.live ↔ ∃ e, t.get i = some e ∧ e.revoked = false := by
  simp only [live, Finset.mem_filter, Finset.mem_range, Option.any_eq_true, Bool.not_eq_true']
  constructor
  · rintro ⟨-, e, he, hr⟩
    exact ⟨e, he, hr⟩
  · rintro ⟨e, he, hr⟩
    exact ⟨lt_of_get he, e, he, hr⟩

theorem card_live_le (t : DeriveTable) : t.live.card ≤ maxDerivations := by
  have h := Finset.card_filter_le (Finset.range maxDerivations)
    fun i => (t.get i).any fun e => !e.revoked
  rw [Finset.card_range] at h
  exact h

/-! ## Marking a set of entries -/

/-- The table with the revoked flag set at every index of `S`. -/
def mark (t : DeriveTable) (S : Finset Nat) : DeriveTable :=
  { t with entries := fun i => (t.entries i).map fun e =>
      { e with revoked := e.revoked || decide (i ∈ S) } }

theorem get_mark (t : DeriveTable) (S : Finset Nat) (i : Nat) :
    (t.mark S).get i = (t.get i).map fun e =>
      { e with revoked := e.revoked || decide (i ∈ S) } := by
  unfold get mark
  split <;> rfl

@[simp] theorem mark_nextId (t : DeriveTable) (S : Finset Nat) :
    (t.mark S).nextId = t.nextId := rfl

theorem mark_empty (t : DeriveTable) : t.mark ∅ = t := by
  cases t
  simp [mark]

theorem mark_mark (t : DeriveTable) (S T : Finset Nat) : (t.mark S).mark T = t.mark (S ∪ T) := by
  unfold mark
  congr 1
  funext i
  simp only [Option.map_map, Function.comp_def]
  congr 1
  funext e
  simp [Bool.or_assoc, Bool.decide_or]

theorem put_revoked {t : DeriveTable} {id : Nat} {e : DeriveEntry} (h : t.get id = some e) :
    t.put id { e with revoked := true } = t.mark {id} := by
  have hent : t.entries id = some e := by
    unfold get at h
    rwa [if_pos (lt_of_get h)] at h
  unfold put mark
  congr 1
  funext i
  by_cases hi : i = id
  · subst hi
    simp [hent]
  · simp [hi]

theorem isRevoked_mark (t : DeriveTable) (S : Finset Nat) (i : Nat) :
    (t.mark S).isRevoked i = (t.isRevoked i || ((t.get i).isSome && decide (i ∈ S))) := by
  unfold isRevoked
  rw [get_mark]
  cases t.get i <;> simp

theorem live_mark (t : DeriveTable) (S : Finset Nat) : (t.mark S).live = t.live \ S := by
  ext i
  rw [Finset.mem_sdiff, mem_live, mem_live, get_mark]
  cases t.get i with
  | none => simp
  | some e => simp

theorem parentLink_mark (t : DeriveTable) (S : Finset Nat) :
    (t.mark S).ParentLink = t.ParentLink := by
  funext d p
  unfold ParentLink
  rw [get_mark]
  cases t.get d <;> simp

theorem derived_mark (t : DeriveTable) (S : Finset Nat) (c d : Nat) :
    (t.mark S).Derived c d ↔ t.Derived c d := by
  unfold Derived
  rw [parentLink_mark]

theorem childLink_mark (t : DeriveTable) (S : Finset Nat) :
    (t.mark S).ChildLink = t.ChildLink := by
  funext i c
  unfold ChildLink
  rw [get_mark]
  cases t.get i <;> simp

end DeriveTable

open DeriveTable

/-! ## What `revoke_recursive` does -/

/-- `Marks t id n t'`: the table `t'` is `t` with a set of formerly live entries marked, all of
them reachable from `id` along child links, `n` of them, and `id` itself is marked if used. -/
def Marks (t : DeriveTable) (id : Nat) (n : Nat) (t' : DeriveTable) : Prop :=
  ∃ S : Finset Nat, t' = t.mark S ∧ n = S.card ∧ S ⊆ t.live ∧
    (∀ i ∈ S, Relation.ReflTransGen t.ChildLink id i) ∧ (t.get id ≠ none → t'.isRevoked id = true)

/-- The loop over the children, given that every recursive call marks as it should. -/
theorem revokeChildren_marks {rec : DeriveTable → Nat → Option (Nat × DeriveTable)}
    (hrec : ∀ t c n t', rec t c = some (n, t') → Marks t c n t') {t : DeriveTable} {id : Nat} :
    ∀ (cs : List (Option Nat)) (S : Finset Nat) (m n : Nat) (t' : DeriveTable),
      (∀ c, some c ∈ cs → t.ChildLink id c) → m = S.card → S ⊆ t.live → id ∈ S →
      (∀ i ∈ S, Relation.ReflTransGen t.ChildLink id i) →
      revokeChildren rec cs (m, t.mark S) = some (n, t') →
      ∃ T : Finset Nat, t' = t.mark T ∧ n = T.card ∧ T ⊆ t.live ∧ id ∈ T ∧
        ∀ i ∈ T, Relation.ReflTransGen t.ChildLink id i := by
  intro cs
  induction cs with
  | nil =>
    intro S m n t' _ hm hS hid hreach h
    simp only [revokeChildren, Option.some.injEq, Prod.mk.injEq] at h
    exact ⟨S, h.2.symm, by omega, hS, hid, hreach⟩
  | cons o cs ih =>
    intro S m n t' hcs hm hS hid hreach h
    cases o with
    | none => exact ih S m n t' (fun c hc => hcs c (List.mem_cons_of_mem _ hc)) hm hS hid hreach h
    | some c =>
      simp only [revokeChildren] at h
      cases hr : rec (t.mark S) c with
      | none => rw [hr] at h; cases h
      | some r =>
        obtain ⟨k, u⟩ := r
        rw [hr] at h
        obtain ⟨T, rfl, rfl, hT, hTreach, -⟩ := hrec _ _ _ _ hr
        rw [live_mark] at hT
        rw [mark_mark] at h
        have hdisj : Disjoint S T :=
          Finset.disjoint_right.mpr fun i hi => (Finset.mem_sdiff.mp (hT hi)).2
        refine ih (S ∪ T) (m + T.card) n t' (fun c hc => hcs c (List.mem_cons_of_mem _ hc)) ?_ ?_
          (Finset.mem_union_left _ hid) ?_ h
        · rw [Finset.card_union_of_disjoint hdisj, hm]
        · exact Finset.union_subset hS (hT.trans Finset.sdiff_subset)
        · intro i hi
          rcases Finset.mem_union.mp hi with hi | hi
          · exact hreach i hi
          · have hstep : t.ChildLink id c := hcs c (List.mem_cons_self ..)
            have htail := hTreach i hi
            rw [childLink_mark] at htail
            exact Relation.ReflTransGen.head hstep htail

theorem childLink_of_mem_children {t : DeriveTable} {id : Nat} {e : DeriveEntry}
    (he : t.get id = some e) {c : Nat}
    (hc : some c ∈ (List.range e.childCount).map e.children) : t.ChildLink id c := by
  obtain ⟨k, hk, hkc⟩ := List.mem_map.mp hc
  exact ⟨e, k, he, List.mem_range.mp hk, hkc⟩

/-- **What a returning `revoke_recursive` has done**: it marked a set of live entries below
`id`, and its count is the size of that set. -/
theorem revokeRecursive_marks : ∀ (fuel : Nat) (t : DeriveTable) (id n : Nat) (t' : DeriveTable),
    revokeRecursive fuel t id = some (n, t') → Marks t id n t' := by
  intro fuel
  induction fuel with
  | zero => intro t id n t' h; cases h
  | succ fuel ih =>
    intro t id n t' h
    rw [revokeRecursive] at h
    cases he : t.get id with
    | none =>
      rw [he] at h
      simp only [Option.some.injEq, Prod.mk.injEq] at h
      obtain ⟨rfl, rfl⟩ := h
      exact ⟨∅, (mark_empty t).symm, by simp, by simp, by simp, by simp [he]⟩
    | some e =>
      rw [he] at h
      by_cases hrev : e.revoked = true
      · simp only [hrev, if_true, Option.some.injEq, Prod.mk.injEq] at h
        obtain ⟨rfl, rfl⟩ := h
        exact ⟨∅, (mark_empty t).symm, by simp, by simp, by simp, by simp [isRevoked, he, hrev]⟩
      · simp only [hrev, if_false, Bool.false_eq_true] at h
        rw [put_revoked he] at h
        have hlive : id ∈ t.live := mem_live.mpr ⟨e, he, by simpa using hrev⟩
        obtain ⟨T, rfl, hn, hT, hid, hreach⟩ := revokeChildren_marks ih
          ((List.range e.childCount).map e.children) {id} 1 n t'
          (fun c hc => childLink_of_mem_children he hc) (by simp)
          (Finset.singleton_subset_iff.mpr hlive) (Finset.mem_singleton_self id)
          (fun i hi => by rw [Finset.mem_singleton.mp hi]) h
        refine ⟨T, rfl, hn, hT, hreach, fun _ => ?_⟩
        rw [isRevoked_mark, he]
        simp [hid]

/-- The loop over the children returns when every call it makes does. -/
theorem revokeChildren_isSome {rec : DeriveTable → Nat → Option (Nat × DeriveTable)}
    {P : DeriveTable → Prop} (hrec : ∀ t c, P t → ∃ n t', rec t c = some (n, t') ∧ P t') :
    ∀ (cs : List (Option Nat)) (acc : Nat × DeriveTable), P acc.2 →
      (revokeChildren rec cs acc).isSome = true := by
  intro cs
  induction cs with
  | nil => intro acc _; rfl
  | cons o cs ih =>
    intro acc hP
    cases o with
    | none => exact ih acc hP
    | some c =>
      obtain ⟨n, t', hr, hP'⟩ := hrec acc.2 c hP
      rw [revokeChildren, hr]
      exact ih (acc.1 + n, t') hP'

/-- **`revoke_recursive` terminates**, on every table whatsoever: each level of the recursion
has marked one more entry before it goes deeper, so as many levels as there are live entries
are enough. -/
theorem revokeRecursive_isSome : ∀ (fuel : Nat) (t : DeriveTable) (id : Nat),
    t.live.card < fuel → (revokeRecursive fuel t id).isSome = true := by
  intro fuel
  induction fuel with
  | zero => intro t id h; omega
  | succ fuel ih =>
    intro t id h
    rw [revokeRecursive]
    cases he : t.get id with
    | none => rfl
    | some e =>
      by_cases hrev : e.revoked = true
      · simp [hrev]
      · simp only [hrev, if_false, Bool.false_eq_true]
        rw [put_revoked he]
        refine revokeChildren_isSome (P := fun u => u.live.card < fuel) ?_ _ _ ?_
        · intro u c hu
          obtain ⟨⟨n, u'⟩, hr⟩ := Option.isSome_iff_exists.mp (ih u c hu)
          obtain ⟨S, rfl, -⟩ := revokeRecursive_marks fuel u c n u' hr
          refine ⟨n, _, hr, ?_⟩
          rw [live_mark]
          exact lt_of_le_of_lt (Finset.card_le_card Finset.sdiff_subset) hu
        · have hlive : id ∈ t.live := mem_live.mpr ⟨e, he, by simpa using hrev⟩
          have hcard : (t.live \ {id}).card + 1 = t.live.card := by
            rw [Finset.sdiff_singleton_eq_erase]
            exact Finset.card_erase_add_one hlive
          show (t.mark {id}).live.card < fuel
          rw [live_mark]
          omega

theorem revokeChildren_mono {rec rec' : DeriveTable → Nat → Option (Nat × DeriveTable)}
    (hrec : ∀ t c r, rec t c = some r → rec' t c = some r) :
    ∀ (cs : List (Option Nat)) (acc r : Nat × DeriveTable),
      revokeChildren rec cs acc = some r → revokeChildren rec' cs acc = some r := by
  intro cs
  induction cs with
  | nil => intro acc r h; exact h
  | cons o cs ih =>
    intro acc r h
    cases o with
    | none => exact ih acc r h
    | some c =>
      rw [revokeChildren] at h ⊢
      cases hr : rec acc.2 c with
      | none => rw [hr] at h; cases h
      | some q =>
        rw [hr] at h
        rw [hrec _ _ _ hr]
        exact ih _ r h

/-- More fuel does not change an answer. -/
theorem revokeRecursive_mono {fuel fuel' : Nat} (hle : fuel ≤ fuel') {t : DeriveTable} {id : Nat}
    {r : Nat × DeriveTable} (h : revokeRecursive fuel t id = some r) :
    revokeRecursive fuel' t id = some r := by
  induction fuel generalizing fuel' t id r with
  | zero => cases h
  | succ fuel ih =>
    obtain ⟨k, rfl⟩ : ∃ k, fuel' = k + 1 := ⟨fuel' - 1, by omega⟩
    rw [revokeRecursive] at h ⊢
    cases he : t.get id with
    | none => rw [he] at h; exact h
    | some e =>
      rw [he] at h
      by_cases hrev : e.revoked = true
      · simpa [hrev] using h
      · simp only [hrev, if_false, Bool.false_eq_true] at h ⊢
        exact revokeChildren_mono (fun _ _ _ hr => ih (by omega) hr) _ _ _ h

/-- **What `revoke` returns on a capability with a table index**: a count and a table, the
same for every amount of fuel beyond the size of the table. -/
theorem revoke_of_parentId {t : DeriveTable} {c : Capability} {id : Nat}
    (hid : c.parentId = some id) :
    ∃ n t', (∀ fuel, maxDerivations < fuel → revoke fuel t c = some (.ok n, t')) ∧
      Marks t id n t' := by
  have hsome := revokeRecursive_isSome (maxDerivations + 1) t id
    (Nat.lt_succ_of_le t.card_live_le)
  obtain ⟨⟨n, t'⟩, hr⟩ := Option.isSome_iff_exists.mp hsome
  refine ⟨n, t', ?_, revokeRecursive_marks _ _ _ _ _ hr⟩
  intro fuel hfuel
  simp only [revoke, hid]
  rw [revokeRecursive_mono hfuel hr]
  rfl

/-! ## What `check_chain_recursive` does -/

/-- The walk fails as soon as a revoked entry is reachable along parent links, and it fails
with `GrantChainBroken` when every entry on the way is present. -/
theorem checkChainRecursive_of_derived {t : DeriveTable} {c d : Nat} (hcd : t.Derived c d)
    (hc : t.isRevoked c = true) : ∀ (fuel : Nat) (r : Except CapError Unit),
    checkChainRecursive fuel t d = some r → r = .error .grantChainBroken := by
  induction hcd using Relation.ReflTransGen.head_induction_on with
  | refl =>
    intro fuel r h
    cases fuel with
    | zero => cases h
    | succ fuel =>
      obtain ⟨e, he, hrev⟩ := (Option.any_eq_true _ _).mp hc
      simp only [checkChainRecursive, he, hrev, if_true, Option.some.injEq] at h
      exact h.symm
  | head hlink _ ih =>
    intro fuel r h
    cases fuel with
    | zero => cases h
    | succ fuel =>
      obtain ⟨e, he, hp⟩ := hlink
      simp only [checkChainRecursive, he, hp] at h
      split at h
      · simpa using h.symm
      · exact ih fuel r h

/-- Marking entries that are not above `d` leaves the walk from `d` as it was. -/
theorem checkChainRecursive_mark {t : DeriveTable} {S : Finset Nat} :
    ∀ (fuel d : Nat), (∀ i ∈ S, ¬ t.Derived i d) →
      checkChainRecursive fuel (t.mark S) d = checkChainRecursive fuel t d := by
  intro fuel
  induction fuel with
  | zero => intro d _; rfl
  | succ fuel ih =>
    intro d hS
    have hd : d ∉ S := fun hd => hS d hd Relation.ReflTransGen.refl
    rw [checkChainRecursive, checkChainRecursive, get_mark]
    cases he : t.get d with
    | none => rfl
    | some e =>
      simp only [Option.map_some, hd, decide_false, Bool.or_false]
      cases hp : e.parent with
      | none => rfl
      | some p =>
        simp only []
        rw [ih p]
        intro i hi hder
        exact hS i hi (Relation.ReflTransGen.head ⟨e, he, hp⟩ hder)

end QuackOS.Cap
