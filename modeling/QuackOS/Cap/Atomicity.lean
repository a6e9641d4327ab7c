import QuackOS.Cap.DeriveTree
import QuackOS.Cap.Syscalls
import QuackOS.Lib.Run

/-!
# Failing to create a capability

`mint_cap` and `derive_cap` take an index of the derivation table before they know that there is
room for what they create, and the system calls find out only afterwards that the space of the
caller is full.  Nothing of this is undone.

* `Unharmed` — what a call that fails is to leave;
* `TakesIndexAndFails` — the calls that go wrong, by the state before them;
* `succeeds_iff` — the calls that succeed;
* `atomic_iff` — a call is atomic just when it is not one of these.
-/

namespace QuackOS.Cap

open DeriveTable CSpaceTable

/-! ## The calls -/

/-- The calls that create a capability. -/
inductive CreateCall
  | mintCap (objId : Nat) (capType : CapType) (rights : CapRights) (owner : ProcessId)
  | deriveCap (parent : Capability) (newRights : CapRights) (owner : ProcessId)
  | cspaceMint (pid : ProcessId) (x0 x1 x2 : BitVec 64)
  | cspaceDerive (pid : ProcessId) (x0 x1 : BitVec 64)

namespace CreateCall

/-- Whether a call succeeds, and what it leaves of the tables. -/
def run (s : CapTables) : CreateCall → Bool × CapTables
  | .mintCap objId capType rights owner =>
      let (r, table) := Cap.mintCap s.table objId capType rights owner
      (r.isOk, { s with table })
  | .deriveCap parent newRights owner =>
      let (r, table) := Cap.deriveCap s.table parent newRights owner
      (r.isOk, { s with table })
  | .cspaceMint pid x0 x1 x2 =>
      let (r, s) := sysCspaceMint s pid x0 x1 x2
      (r.isOk, s)
  | .cspaceDerive pid x0 x1 =>
      let (r, s) := sysCspaceDerive s pid x0 x1
      (r.isOk, s)

/-- The tables after a sequence of calls, whether they succeed or not. -/
def after (s : CapTables) (calls : List CreateCall) : CapTables :=
  Run.exec (fun s c => (run s c).2) s calls

end CreateCall

open CreateCall

/-- A failed call that went from `s` to `s'` has done no harm. -/
structure Unharmed (s s' : CapTables) : Prop where
  /-- The entries of the derivation table, with their children. -/
  entries : ∀ i, s'.table.get i = s.table.get i
  spaces : s'.spaces = s.spaces
  /-- What would have succeeded later still does. -/
  later : ∀ calls c, (run (after s calls) c).1 = true → (run (after s' calls) c).1 = true

/-- **A call that fails does no harm.** -/
def Atomic (s : CapTables) (c : CreateCall) : Prop :=
  (run s c).1 = false → Unharmed s (run s c).2

/-! ## The calls that go wrong -/

/-- There is no slot for another capability of the process, or no space to make one in. -/
def NoRoom (t : CSpaceTable) (pid : ProcessId) : Prop :=
  (t.get pid = none → ∀ x < maxCspaces, t.spaces x ≠ none) ∧
    (t.get pid ≠ none → ∀ i < cslotCount, (t.node pid).slots i ≠ none)

/-- The rights are a subset, and the parent's entry is there and not revoked. -/
structure Derivable (t : DeriveTable) (parent : Capability) (newRights : CapRights) (p : Nat)
    (e : DeriveEntry) : Prop where
  rights : parent.rights.contains newRights.bits = true
  parentId : parent.parentId = some p
  entry : t.get p = some e
  live : e.revoked = false

/-- The derivation table has no index left, or the parent's list of children is full.  (A parent
whose index is handed out again is overwritten by its child, and starts with an empty list.) -/
def RunsOut (t : DeriveTable) (p : Nat) (e : DeriveEntry) : Prop :=
  maxDerivations ≤ t.nextId ∨ t.nextId ≠ p ∧ maxChildren ≤ e.childCount

/-- The call gets as far as taking an index, and then there is no room. -/
def TakesIndexAndFails (s : CapTables) : CreateCall → Prop
  | .mintCap .. => maxDerivations ≤ s.table.nextId
  | .deriveCap parent newRights _ =>
      ∃ p e, Derivable s.table parent newRights p e ∧ RunsOut s.table p e
  | .cspaceMint pid _ x1 _ => capTypeFromU8 (x1.setWidth 8) ≠ none ∧
      (maxDerivations ≤ s.table.nextId ∨ NoRoom s.spaces pid)
  | .cspaceDerive pid x0 x1 => ∃ parent p e, s.spaces.Holds pid x0.toNat parent ∧
      Derivable s.table parent ⟨x1.setWidth 16⟩ p e ∧
        (RunsOut s.table p e ∨ NoRoom s.spaces pid)

/-- The call gets as far as taking an index, and there is room. -/
def Fits (s : CapTables) : CreateCall → Prop
  | .mintCap .. => s.table.nextId < maxDerivations
  | .deriveCap parent newRights _ =>
      ∃ p e, Derivable s.table parent newRights p e ∧ ¬ RunsOut s.table p e
  | .cspaceMint pid _ x1 _ => capTypeFromU8 (x1.setWidth 8) ≠ none ∧
      s.table.nextId < maxDerivations ∧ ¬ NoRoom s.spaces pid
  | .cspaceDerive pid x0 x1 => ∃ parent p e, s.spaces.Holds pid x0.toNat parent ∧
      Derivable s.table parent ⟨x1.setWidth 16⟩ p e ∧
        ¬ RunsOut s.table p e ∧ ¬ NoRoom s.spaces pid

/-! ## What each part does -/

section Parts

variable {t : CSpaceTable} {pid : ProcessId}

theorem lookupCap_ok_iff {i : CPtr} {k : Capability} :
    lookupCap t pid i = .ok k ↔ t.Holds pid i k := by
  unfold lookupCap withCspace Holds
  cases hget : t.get pid with
  | none =>
    rw [node_of_get_none hget]
    exact iff_of_false (fun h => nomatch h) (fun h => nomatch h.2)
  | some cs =>
    rw [node_of_get hget]
    dsimp only
    unfold CNode.lookup
    by_cases hi : i < cslotCount
    · rw [if_pos hi]
      cases hs : cs.root.slots i with
      | none => simp
      | some k' => simp [hi]
    · rw [if_neg hi]
      exact iff_of_false (fun h => nomatch h) (fun h => hi h.1)

/-- A node takes a capability unless it is full, and then it stays as it is. -/
theorem CNode.insert_cases (n : CNode) (cap : Capability) :
    ((∀ i < cslotCount, n.slots i ≠ none) ∧ n.insert cap = (.error .cnodeFull, n)) ∨
      ((∃ i < cslotCount, n.slots i = none) ∧ (n.insert cap).1.isOk = true) := by
  unfold CNode.insert
  cases hfree : Slots.firstFree cslotCount n.slots with
  | none => exact Or.inl ⟨Slots.firstFree_eq_none.mp hfree, rfl⟩
  | some i =>
    obtain ⟨hslot, hi, -⟩ := Slots.firstFree_eq_some.mp hfree
    exact Or.inr ⟨⟨i, hi, hslot⟩, rfl⟩

/-- **What `insert_cap` does**: it changes nothing if there is no room, and succeeds if there
is. -/
theorem insertCap_cases (t : CSpaceTable) (pid : ProcessId) (cap : Capability) :
    (NoRoom t pid ∧ ∃ e, insertCap t pid cap = (.error e, t)) ∨
      (¬ NoRoom t pid ∧ (insertCap t pid cap).1.isOk = true) := by
  unfold insertCap
  rcases withCspaceMut_cases t pid fun n => n.insert cap with
    ⟨hnone, hfull, heq⟩ | ⟨hspace, hresult, -⟩
  · exact Or.inl ⟨⟨fun _ => hfull, fun h => absurd hnone h⟩, _, heq⟩
  · rcases CNode.insert_cases (t.node pid) cap with ⟨hfull, heq⟩ | ⟨⟨i, hi, hslot⟩, hok⟩
    · -- a full node is not a new one
      have hsome : t.get pid ≠ none := by
        intro hnone
        rw [node_of_get_none hnone] at hfull
        exact hfull 0 (by decide) rfl
      obtain ⟨cs, hcs⟩ := Option.ne_none_iff_exists'.mp hsome
      refine Or.inl ⟨⟨fun h => absurd h hsome, fun _ => hfull⟩, .cnodeFull, ?_⟩
      unfold withCspaceMut
      rw [hcs]
      exact modify_of_error hsome heq
    · refine Or.inr ⟨fun h => ?_, by rw [hresult]; exact hok⟩
      by_cases hnone : t.get pid = none
      · obtain ⟨x, hx, hfree⟩ := hspace hnone
        exact h.1 hnone x hx hfree
      · exact h.2 hnone i hi hslot

end Parts

/-- The parent of a derivation is determined. -/
theorem Derivable.unique {t : DeriveTable} {parent : Capability} {newRights : CapRights}
    {p p' : Nat} {e e' : DeriveEntry} (h : Derivable t parent newRights p e)
    (h' : Derivable t parent newRights p' e') : p' = p ∧ e' = e := by
  obtain rfl : p' = p := Option.some.inj (h'.parentId.symm.trans h.parentId)
  exact ⟨rfl, Option.some.inj (h'.entry.symm.trans h.entry)⟩

/-- A derivation that is refused changes nothing. -/
theorem deriveCap_refused {t : DeriveTable} {parent : Capability} {newRights : CapRights}
    (h : ∀ p e, ¬ Derivable t parent newRights p e) (owner : ProcessId) :
    ∃ e, deriveCap t parent newRights owner = (.error e, t) := by
  unfold deriveCap
  by_cases hr : parent.rights.contains newRights.bits = true
  · rw [hr]
    cases hp : parent.parentId with
    | none => exact ⟨_, rfl⟩
    | some p =>
      cases hg : t.get p with
      | none => exact ⟨.parentRevoked, by simp [hg]⟩
      | some e =>
        have hrevoked : e.revoked = true := by
          by_contra hlive
          exact h p e ⟨hr, hp, hg, Bool.eq_false_of_not_eq_true hlive⟩
        exact ⟨.parentRevoked, by simp [hg, hrevoked]⟩
  · exact ⟨.rightsEscalation, by simp [hr]⟩

/-- A derivation that is not refused takes an index, and succeeds if there is room. -/
theorem deriveCap_takes {t : DeriveTable} {parent : Capability} {newRights : CapRights} {p : Nat}
    {e : DeriveEntry} (h : Derivable t parent newRights p e) (owner : ProcessId) :
    (deriveCap t parent newRights owner).2.nextId = (t.nextId + 1) % 2 ^ 64 ∧
      ((deriveCap t parent newRights owner).1.isOk = true ↔ ¬ RunsOut t p e) := by
  unfold RunsOut
  simp only [deriveCap, h.rights, h.parentId, h.entry, h.live, insert_eq, Bool.not_true,
    Bool.false_eq_true, if_false]
  by_cases hfull : maxDerivations ≤ t.nextId
  · simp only [hfull, if_true, true_or, not_true_eq_false, iff_false]
    exact ⟨rfl, Bool.false_ne_true⟩
  · simp only [hfull, if_false, false_or]
    set child := DeriveEntry.new (Capability.derived parent.objId parent.capType newRights p)
      (some p) owner
    -- the entry that the child is added to: a new one, if the index is the parent's own
    obtain ⟨e', he', hcount⟩ : ∃ e', (t.grow child).get p = some e' ∧
        (maxChildren ≤ e'.childCount ↔ t.nextId ≠ p ∧ maxChildren ≤ e.childCount) := by
      rw [get_grow (by omega)]
      by_cases hp : p = t.nextId
      · rw [if_pos hp]
        refine ⟨child, rfl, iff_of_false (fun h => nomatch h) fun h => h.1 hp.symm⟩
      · rw [if_neg hp]
        exact ⟨e, h.entry, ⟨fun hc => ⟨fun hn => hp hn.symm, hc⟩, And.right⟩⟩
    rw [addChild_of_get he', ← hcount]
    by_cases hc : maxChildren ≤ e'.childCount
    · simp only [hc, if_true, not_true_eq_false, iff_false]
      exact ⟨rfl, Bool.false_ne_true⟩
    · simp only [hc, if_false, not_false_eq_true, iff_true]
      exact ⟨rfl, rfl⟩

/-- What a call comes to: it succeeds, or it is refused and changes nothing, or it takes an index
and fails. -/
inductive Outcome (s : CapTables) (c : CreateCall) : Prop
  | succeeds (ok : (run s c).1 = true) (fits : Fits s c)
  | refused (same : run s c = (false, s)) (early : ¬ TakesIndexAndFails s c ∧ ¬ Fits s c)
  | fails (error : (run s c).1 = false) (taken : (run s c).2.table.nextId =
      (s.table.nextId + 1) % 2 ^ 64) (lacks : TakesIndexAndFails s c)

/-- Putting a new capability into the caller's space. -/
theorem insertNew_cases (table : DeriveTable) (spaces : CSpaceTable) (pid : ProcessId)
    (cap : Capability) :
    ((insertNew table spaces pid cap).1.isOk = true ↔ ¬ NoRoom spaces pid) ∧
      (insertNew table spaces pid cap).2.table = table := by
  unfold insertNew
  rcases insertCap_cases spaces pid cap with ⟨hfull, e, heq⟩ | ⟨hroom, hok⟩
  · rw [heq]
    exact ⟨iff_of_false Bool.false_ne_true (not_not.mpr hfull), rfl⟩
  · rcases hr : insertCap spaces pid cap with ⟨r, spaces'⟩
    rw [hr] at hok
    cases r with
    | error e => cases hok
    | ok cptr => exact ⟨iff_of_true rfl hroom, rfl⟩

/-- The outcome of a call that ends by inserting what it has made. -/
theorem outcome_of_insertNew {s : CapTables} {c : CreateCall}
    {r : Except CapFailure CPtr × CapTables} {full : Prop} (hrun : run s c = (r.1.isOk, r.2))
    (hlacks : full → TakesIndexAndFails s c) (hfits : ¬ full → Fits s c)
    (hok : r.1.isOk = true ↔ ¬ full)
    (htaken : r.2.table.nextId = (s.table.nextId + 1) % 2 ^ 64) : Outcome s c := by
  by_cases hfull : full
  · refine .fails ?_ ?_ (hlacks hfull)
    · rw [hrun]
      exact Bool.eq_false_of_not_eq_true fun h => hok.mp h hfull
    · rw [hrun]
      exact htaken
  · refine .succeeds ?_ (hfits hfull)
    rw [hrun]
    exact hok.mpr hfull

theorem outcome_mintCap (s : CapTables) (objId : Nat) (capType : CapType) (rights : CapRights)
    (owner : ProcessId) : Outcome s (.mintCap objId capType rights owner) := by
  rcases mintCap_cases s.table objId capType rights owner with ⟨hfull, heq⟩ | ⟨hroom, heq⟩
  · refine .fails ?_ ?_ hfull
    · rw [run, heq]
      rfl
    · rw [run, heq]
      rfl
  · refine .succeeds ?_ hroom
    rw [run, heq]
    rfl

theorem outcome_deriveCap (s : CapTables) (parent : Capability) (newRights : CapRights)
    (owner : ProcessId) : Outcome s (.deriveCap parent newRights owner) := by
  by_cases hderivable : ∃ p e, Derivable s.table parent newRights p e
  · obtain ⟨p, e, h⟩ := hderivable
    obtain ⟨htaken, hok⟩ := deriveCap_takes h owner
    by_cases hout : RunsOut s.table p e
    · exact .fails (Bool.eq_false_of_not_eq_true fun h => hok.mp h hout) htaken ⟨p, e, h, hout⟩
    · exact .succeeds (hok.mpr hout) ⟨p, e, h, hout⟩
  · have hnot : ∀ p e, ¬ Derivable s.table parent newRights p e :=
      fun p e h => hderivable ⟨p, e, h⟩
    obtain ⟨e, heq⟩ := deriveCap_refused hnot owner
    refine .refused ?_ ⟨fun ⟨p, e, h, _⟩ => hnot p e h, fun ⟨p, e, h, _⟩ => hnot p e h⟩
    rw [run, heq]
    rfl

theorem outcome_cspaceMint (s : CapTables) (pid : ProcessId) (x0 x1 x2 : BitVec 64) :
    Outcome s (.cspaceMint pid x0 x1 x2) := by
  cases htype : capTypeFromU8 (x1.setWidth 8) with
  | none =>
    refine .refused ?_ ⟨fun h => h.1 htype, fun h => h.1 htype⟩
    rw [run, sysCspaceMint, htype]
    rfl
  | some capType =>
    have hsome : capTypeFromU8 (x1.setWidth 8) ≠ none := by
      rw [htype]
      exact Option.some_ne_none capType
    rcases mintCap_cases s.table x0.toNat capType ⟨x2.setWidth 16⟩ pid with
      ⟨hfull, heq⟩ | ⟨hroom, heq⟩
    · refine .fails ?_ ?_ ⟨hsome, Or.inl hfull⟩
      · rw [run, sysCspaceMint, htype]
        dsimp only
        rw [heq]
        rfl
      · rw [run, sysCspaceMint, htype]
        dsimp only
        rw [heq]
        rfl
    · have hrun := insertNew_cases
        (s.table.grow (.new (.new x0.toNat capType ⟨x2.setWidth 16⟩) none pid)) s.spaces pid
        { Capability.new x0.toNat capType ⟨x2.setWidth 16⟩ with parentId := some s.table.nextId }
      refine outcome_of_insertNew ?_ (fun h => ⟨hsome, Or.inr h⟩) (fun h => ⟨hsome, hroom, h⟩)
        hrun.1 (congrArg DeriveTable.nextId hrun.2)
      rw [run, sysCspaceMint, htype]
      dsimp only
      rw [heq]

theorem outcome_cspaceDerive (s : CapTables) (pid : ProcessId) (x0 x1 : BitVec 64) :
    Outcome s (.cspaceDerive pid x0 x1) := by
  cases hlookup : lookupCap s.spaces pid x0.toNat with
  | error e =>
    have hempty : ∀ k, ¬ s.spaces.Holds pid x0.toNat k := by
      intro k hk
      rw [lookupCap_ok_iff.mpr hk] at hlookup
      cases hlookup
    refine .refused ?_ ⟨fun ⟨k, _, _, hk, _⟩ => hempty k hk, fun ⟨k, _, _, hk, _⟩ => hempty k hk⟩
    rw [run, sysCspaceDerive, hlookup]
    rfl
  | ok parent =>
    have hholds := lookupCap_ok_iff.mp hlookup
    by_cases hderivable : ∃ p e, Derivable s.table parent ⟨x1.setWidth 16⟩ p e
    · obtain ⟨p, e, h⟩ := hderivable
      obtain ⟨htaken, hok⟩ := deriveCap_takes h pid
      rcases hr : deriveCap s.table parent ⟨x1.setWidth 16⟩ pid with ⟨r, table⟩
      rw [hr] at htaken hok
      cases r with
      | error e' =>
        have hout : RunsOut s.table p e := not_not.mp fun h => Bool.false_ne_true (hok.mpr h)
        refine .fails ?_ ?_ ⟨parent, p, e, hholds, h, Or.inl hout⟩
        · rw [run, sysCspaceDerive, hlookup]
          dsimp only
          rw [hr]
          rfl
        · rw [run, sysCspaceDerive, hlookup]
          dsimp only
          rw [hr]
          exact htaken
      | ok cap =>
        have hfits : ¬ RunsOut s.table p e := hok.mp rfl
        have hrun := insertNew_cases table s.spaces pid cap
        refine outcome_of_insertNew ?_ (fun hfull => ⟨parent, p, e, hholds, h, Or.inr hfull⟩)
          (fun hroom => ⟨parent, p, e, hholds, h, hfits, hroom⟩) hrun.1 ?_
        · rw [run, sysCspaceDerive, hlookup]
          dsimp only
          rw [hr]
        · rw [hrun.2]
          exact htaken
    · have hnot : ∀ k, s.spaces.Holds pid x0.toNat k →
          ∀ p e, ¬ Derivable s.table k ⟨x1.setWidth 16⟩ p e := by
        intro k hk p e h
        obtain rfl : k = parent := Option.some.inj (hk.2.symm.trans hholds.2)
        exact hderivable ⟨p, e, h⟩
      obtain ⟨e, heq⟩ := deriveCap_refused (hnot parent hholds) pid
      refine .refused ?_ ⟨fun ⟨k, p, e, hk, h, _⟩ => hnot k hk p e h,
        fun ⟨k, p, e, hk, h, _⟩ => hnot k hk p e h⟩
      rw [run, sysCspaceDerive, hlookup]
      dsimp only
      rw [heq]
      rfl

/-- **Every call has one of these outcomes.** -/
theorem outcome (s : CapTables) (c : CreateCall) : Outcome s c := by
  cases c with
  | mintCap objId capType rights owner => exact outcome_mintCap s objId capType rights owner
  | deriveCap parent newRights owner => exact outcome_deriveCap s parent newRights owner
  | cspaceMint pid x0 x1 x2 => exact outcome_cspaceMint s pid x0 x1 x2
  | cspaceDerive pid x0 x1 => exact outcome_cspaceDerive s pid x0 x1

/-- A call for which there is room is not one that goes wrong. -/
theorem Fits.not_takes {s : CapTables} {c : CreateCall} (h : Fits s c) :
    ¬ TakesIndexAndFails s c := by
  cases c with
  | mintCap => exact not_le.mpr h
  | deriveCap =>
    obtain ⟨p, e, hd, hroom⟩ := h
    rintro ⟨p', e', hd', hout⟩
    obtain ⟨rfl, rfl⟩ := hd.unique hd'
    exact hroom hout
  | cspaceMint => exact fun hout => hout.2.elim (not_le.mpr h.2.1) h.2.2
  | cspaceDerive =>
    obtain ⟨k, p, e, hk, hd, hroom, hspace⟩ := h
    rintro ⟨k', p', e', hk', hd', hout⟩
    obtain rfl : k' = k := Option.some.inj (hk'.2.symm.trans hk.2)
    obtain ⟨rfl, rfl⟩ := hd.unique hd'
    exact hout.elim hroom hspace

/-- **The calls that succeed.** -/
theorem succeeds_iff (s : CapTables) (c : CreateCall) : (run s c).1 = true ↔ Fits s c := by
  cases outcome s c with
  | succeeds ok fits => exact iff_of_true ok fits
  | refused same early =>
    rw [same]
    exact iff_of_false Bool.false_ne_true early.2
  | fails error taken lacks =>
    rw [error]
    exact iff_of_false Bool.false_ne_true fun h => h.not_takes lacks

/-! ## Atomic calls -/

/-- A call that mints, whatever. -/
def anyMint : CreateCall := .mintCap 0 .untyped ⟨0⟩ 0

theorem run_anyMint (s : CapTables) :
    ((run s anyMint).1 = true ↔ s.table.nextId < maxDerivations) ∧
      (run s anyMint).2.table.nextId = (s.table.nextId + 1) % 2 ^ 64 := by
  unfold anyMint
  rcases mintCap_cases s.table 0 .untyped ⟨0⟩ 0 with ⟨hfull, heq⟩ | ⟨hroom, heq⟩
  · rw [run, heq]
    exact ⟨iff_of_false Bool.false_ne_true (not_lt.mpr hfull), rfl⟩
  · rw [run, heq]
    exact ⟨iff_of_true rfl hroom, rfl⟩

/-- The index counter after `k + 1` of them. -/
theorem nextId_after_mints (k : Nat) (s : CapTables) :
    (after s (List.replicate (k + 1) anyMint)).table.nextId =
      (s.table.nextId + (k + 1)) % 2 ^ 64 := by
  induction k generalizing s with
  | zero => exact (run_anyMint s).2
  | succ k ih =>
    have hstep := ih (run s anyMint).2
    rw [(run_anyMint s).2] at hstep
    calc (after s (List.replicate (k + 2) anyMint)).table.nextId
        = (after (run s anyMint).2 (List.replicate (k + 1) anyMint)).table.nextId := rfl
      _ = ((s.table.nextId + 1) % 2 ^ 64 + (k + 1)) % 2 ^ 64 := hstep
      _ = (s.table.nextId + (k + 2)) % 2 ^ 64 := by omega

/-- An index taken by a call that fails is missed later: the mint that would have got the last
index of the table gets the one behind it. -/
theorem not_unharmed_of_taken {s s' : CapTables}
    (h : s'.table.nextId = (s.table.nextId + 1) % 2 ^ 64) : ¬ Unharmed s s' := by
  intro hun
  set k := 2 ^ 64 + 254 - s.table.nextId % 2 ^ 64 with hk
  have hlater := hun.later (List.replicate (k + 1) anyMint) anyMint
  rw [(run_anyMint _).1, (run_anyMint _).1, nextId_after_mints, nextId_after_mints, h] at hlater
  have hlast : (s.table.nextId + (k + 1)) % 2 ^ 64 = 255 := by omega
  have hbehind : ((s.table.nextId + 1) % 2 ^ 64 + (k + 1)) % 2 ^ 64 = 256 := by omega
  rw [hlast, hbehind] at hlater
  exact absurd (hlater (by decide)) (by decide)

/-- **A call to create a capability is atomic just when it does not take an index and then find
that there is no room.** -/
theorem atomic_iff (s : CapTables) (c : CreateCall) : Atomic s c ↔ ¬ TakesIndexAndFails s c := by
  unfold Atomic
  cases outcome s c with
  | succeeds ok fits =>
    rw [ok]
    exact iff_of_true (fun h => nomatch h) fits.not_takes
  | refused same early =>
    rw [same]
    exact iff_of_true (fun _ => ⟨fun _ => rfl, rfl, fun _ _ => id⟩) early.1
  | fails error taken lacks =>
    exact iff_of_false (fun h => not_unharmed_of_taken taken (h error)) (not_not.mpr lacks)

/-! ## A list of children that is full -/

/-- A capability, and sixteen derived from it. -/
def sixteenChildren : List CreateCall :=
  .mintCap 7 .endpoint ⟨CapRights.call⟩ 1 ::
    List.replicate 16 (.deriveCap ⟨7, .endpoint, ⟨CapRights.call⟩, some 0⟩ ⟨CapRights.send⟩ 1)

/-- **The seventeenth fails, and its entry stays in the table.** -/
theorem seventeenth_child_stays :
    let s := after ⟨.new, .new⟩ sixteenChildren
    let c := CreateCall.deriveCap ⟨7, .endpoint, ⟨CapRights.call⟩, some 0⟩ ⟨CapRights.send⟩ 1
    (run s c).1 = false ∧ (s.table.get 17).isNone = true ∧
      ((run s c).2.table.get 17).isSome = true ∧ ¬ Atomic s c := by
  intro s c
  have hfails : (run s c).1 = false := by decide +kernel
  have hbefore : (s.table.get 17).isNone = true := by decide +kernel
  have hafter : ((run s c).2.table.get 17).isSome = true := by decide +kernel
  refine ⟨hfails, hbefore, hafter, fun hatomic => ?_⟩
  rw [(hatomic hfails).entries 17, Option.isNone_iff_eq_none.mp hbefore] at hafter
  cases hafter

end QuackOS.Cap
