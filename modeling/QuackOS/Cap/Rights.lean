import QuackOS.Cap.DeriveTree

/-!
# No rights amplification

A capability exists twice: the caller holds one copy, the derivation table another, and
`derive_cap` checks the rights of the first while it files the child under the index of the
second.  As long as callers hand in capabilities that `mint_cap` or `derive_cap` returned, the
two copies agree (`Ledger.Lawful`), and then

* parent links lead from every entry down to a minted root, the indices strictly decreasing
  and the rights never shrinking on the way (`DeriveTable.Lineage`);
* every capability handed out names its root's object and carries no right its root does not
  have (`no_amplification`).

A capability that was never handed out breaks the agreement (`forged_amplifies`).
-/

namespace QuackOS.Cap

open DeriveTable

/-- `c` refers to the same object as `p`, with at most its rights. -/
structure Capability.Narrows (c p : Capability) : Prop where
  objId : c.objId = p.objId
  capType : c.capType = p.capType
  rights : p.rights.contains c.rights.bits = true

namespace Capability.Narrows

variable {a b c : Capability}

theorem of_eq (hobj : a.objId = b.objId) (htype : a.capType = b.capType)
    (hrights : a.rights = b.rights) : a.Narrows b := by
  refine ⟨hobj, htype, ?_⟩
  rw [hrights]
  simp [CapRights.contains]

theorem trans (h : a.Narrows b) (h' : b.Narrows c) : a.Narrows c where
  objId := h.objId.trans h'.objId
  capType := h.capType.trans h'.capType
  rights := by
    have h1 : b.rights.bits &&& a.rights.bits = a.rights.bits := by
      simpa [CapRights.contains] using h.rights
    have h2 : c.rights.bits &&& b.rights.bits = b.rights.bits := by
      simpa [CapRights.contains] using h'.rights
    have h3 : c.rights.bits &&& a.rights.bits = a.rights.bits := by
      rw [← h1, ← BitVec.and_assoc, h2]
    simpa [CapRights.contains] using h3

end Capability.Narrows

/-! ## What an entry records for good -/

namespace DeriveTable

/-- The capability and the parent an entry was made with.  Neither changes afterwards. -/
def origin (t : DeriveTable) (i : Nat) : Option (Capability × Option Nat) :=
  (t.get i).map fun e => (e.cap, e.parent)

@[simp] theorem origin_bump (t : DeriveTable) (i : Nat) : t.bump.origin i = t.origin i := rfl

theorem origin_grow {t : DeriveTable} (h : t.nextId < maxDerivations) (e : DeriveEntry)
    (i : Nat) : (t.grow e).origin i = if i = t.nextId then some (e.cap, e.parent)
      else t.origin i := by
  rw [origin, get_grow h]
  split
  · rfl
  · rfl

theorem origin_link {t : DeriveTable} {j : Nat} {p : DeriveEntry} (hp : t.get j = some p)
    (c i : Nat) : (t.link j p c).origin i = t.origin i := by
  rw [origin, get_link hp]
  split
  · rename_i hi
    subst hi
    simp [origin, hp]
  · rfl

@[simp] theorem origin_mark (t : DeriveTable) (S : Finset Nat) (i : Nat) :
    (t.mark S).origin i = t.origin i := by
  rw [origin, get_mark, origin, Option.map_map]
  rfl

theorem origin_eq_some {t : DeriveTable} {i : Nat} {c : Capability} {p : Option Nat} :
    t.origin i = some (c, p) ↔ ∃ e, t.get i = some e ∧ e.cap = c ∧ e.parent = p := by
  simp [origin, Option.map_eq_some_iff]

/-- Following parent links from entry `i` ends at the minted root `r`: the indices go strictly
down, and no link widens the capability. -/
inductive Lineage (t : DeriveTable) : Nat → Nat → Prop
  | root {i : Nat} {e : DeriveEntry} (he : t.get i = some e) (hroot : e.parent = none) :
      Lineage t i i
  | child {i p r : Nat} {e pe : DeriveEntry} (he : t.get i = some e) (hp : e.parent = some p)
      (hpe : t.get p = some pe) (hlt : p < i) (hcap : e.cap.Narrows pe.cap)
      (h : Lineage t p r) : Lineage t i r

/-- What lies at the two ends of a lineage. -/
theorem Lineage.ends {t : DeriveTable} {i r : Nat} (h : t.Lineage i r) :
    ∃ e re, t.get i = some e ∧ t.get r = some re ∧ re.parent = none ∧ e.cap.Narrows re.cap := by
  induction h with
  | root he hroot => exact ⟨_, _, he, he, hroot, .of_eq rfl rfl rfl⟩
  | child he _ hpe _ hcap _ ih =>
    obtain ⟨pe', re, hpe', hre, hroot, hnarrow⟩ := ih
    rw [hpe] at hpe'
    cases hpe'
    exact ⟨_, re, he, hre, hroot, hcap.trans hnarrow⟩

end DeriveTable

/-! ## The two copies agree -/

/-- The capability handed to `derive_cap` is one that was handed out. -/
def Ledger.FromIssued (l : Ledger) : DeriveOp → Prop
  | .derive parent _ _ => parent ∈ l.issued
  | .mint .. | .revoke _ => True

/-- A child was filed under an earlier entry it narrows, and what was handed out equals what
was filed. -/
structure Ledger.Lawful (l : Ledger) : Prop where
  good : l.Good
  parent : ∀ i c p, l.table.origin i = some (c, some p) →
    ∃ pc q, l.table.origin p = some (pc, q) ∧ p < i ∧ c.Narrows pc
  copy : ∀ c ∈ l.issued, ∃ i k q, c.parentId = some i ∧ l.table.origin i = some (k, q) ∧
    k.objId = c.objId ∧ k.capType = c.capType ∧ k.rights = c.rights

namespace Ledger.Lawful

variable {l : Ledger}

theorem boot : Ledger.boot.Lawful where
  good := Ledger.good_boot
  parent i c p h := by simp [Ledger.boot, origin, DeriveTable.get, DeriveTable.new] at h
  copy c hc := by simp [Ledger.boot] at hc

/-- Calls that file nothing new. -/
theorem of_origin (h : l.Lawful) {t : DeriveTable} (hgood : Ledger.Good { l with table := t })
    (ht : ∀ i, t.origin i = l.table.origin i) : Ledger.Lawful { l with table := t } := by
  refine ⟨hgood, fun i c p => ?_, fun c hc => ?_⟩
  · show t.origin i = some (c, some p) → ∃ pc q, t.origin p = some (pc, q) ∧ p < i ∧ c.Narrows pc
    rw [ht i, ht p]
    exact h.parent i c p
  · obtain ⟨i, k, q, hi, hk, heq⟩ := h.copy c hc
    exact ⟨i, k, q, hi, (ht i).trans hk, heq⟩

/-- A table with one new entry, at the index the counter stood at. -/
theorem parent_grow (h : l.Lawful) (hfull : l.table.nextId < maxDerivations) {e : DeriveEntry}
    (he : ∀ p, e.parent = some p →
      ∃ pc q, l.table.origin p = some (pc, q) ∧ e.cap.Narrows pc) :
    ∀ i c p, (l.table.grow e).origin i = some (c, some p) →
      ∃ pc q, (l.table.grow e).origin p = some (pc, q) ∧ p < i ∧ c.Narrows pc := by
  have hold : ∀ {p pc q}, l.table.origin p = some (pc, q) →
      p < l.table.nextId ∧ (l.table.grow e).origin p = some (pc, q) := by
    intro p pc q hp
    obtain ⟨pe, hpe, -, -⟩ := origin_eq_some.mp hp
    have hlt := h.good.wellFormed.lt_nextId p pe hpe
    refine ⟨hlt, ?_⟩
    rw [origin_grow hfull, if_neg (by omega)]
    exact hp
  intro i c p hi
  rw [origin_grow hfull] at hi
  split at hi
  · rename_i hnew
    obtain ⟨rfl, hp⟩ := Prod.mk.injEq .. ▸ Option.some.inj hi
    obtain ⟨pc, q, hpc, hnarrow⟩ := he p hp
    obtain ⟨hlt, hpc'⟩ := hold hpc
    exact ⟨pc, q, hpc', by omega, hnarrow⟩
  · obtain ⟨pc, q, hpc, hlt, hnarrow⟩ := h.parent i c p hi
    exact ⟨pc, q, (hold hpc).2, hlt, hnarrow⟩

/-- The capabilities handed out keep their copies as the table grows. -/
theorem copy_grow (h : l.Lawful) (hfull : l.table.nextId < maxDerivations) (e : DeriveEntry) :
    ∀ c ∈ l.issued, ∃ i k q, c.parentId = some i ∧ (l.table.grow e).origin i = some (k, q) ∧
      k.objId = c.objId ∧ k.capType = c.capType ∧ k.rights = c.rights := by
  intro c hc
  obtain ⟨i, k, q, hi, hk, heq⟩ := h.copy c hc
  obtain ⟨ke, hke, -, -⟩ := origin_eq_some.mp hk
  have hlt := h.good.wellFormed.lt_nextId i ke hke
  refine ⟨i, k, q, hi, ?_, heq⟩
  rw [origin_grow hfull, if_neg (by omega)]
  exact hk

theorem mint (h : l.Lawful) (hw : l.table.nextId + 1 < 2 ^ 64) (o : Nat) (ty : CapType)
    (r : CapRights) (ow : ProcessId) : (l.record (mintCap l.table o ty r ow)).Lawful := by
  have hgood := l.good_mint h.good hw o ty r ow
  rcases mintCap_cases l.table o ty r ow with ⟨-, heq⟩ | ⟨hfull, heq⟩
  · rw [heq] at hgood ⊢
    exact h.of_origin hgood fun _ => rfl
  · rw [heq] at hgood ⊢
    refine ⟨hgood, h.parent_grow hfull (fun p hp => by cases hp), fun c hc => ?_⟩
    rcases List.mem_cons.mp hc with rfl | hc
    · refine ⟨l.table.nextId, Capability.new o ty r, none, rfl, ?_, rfl, rfl, rfl⟩
      show (l.table.grow _).origin _ = _
      rw [origin_grow hfull, if_pos rfl]
      rfl
    · exact h.copy_grow hfull _ c hc

theorem derive (h : l.Lawful) (hw : l.table.nextId + 1 < 2 ^ 64) {par : Capability}
    (hpar : par ∈ l.issued) (r : CapRights) (ow : ProcessId) :
    (l.record (deriveCap l.table par r ow)).Lawful := by
  have hgood := l.good_derive h.good hw par r ow
  rcases deriveCap_cases l.table par r ow with ⟨err, heq⟩ | heq |
    ⟨pid, pe, e, hpid, hpe, -, hfull, hsub, he, hres⟩
  · rw [heq] at hgood ⊢
    exact h
  · rw [heq] at hgood ⊢
    exact h.of_origin hgood fun _ => rfl
  -- the parent's copy in the table is what the caller handed in
  obtain ⟨i, k, q, hi, hk, hobj, htype, hrights⟩ := h.copy par hpar
  rw [hpid, Option.some.injEq] at hi
  subst hi
  have hparent := h.parent_grow hfull (e := e) fun p hp => by
    rw [he] at hp ⊢
    cases hp
    refine ⟨k, q, hk, ⟨hobj.symm, htype.symm, ?_⟩⟩
    rw [hrights]
    exact hsub
  have hcopy := h.copy_grow hfull e
  rcases hres with heq | ⟨pe', hpe', heq⟩
  · rw [heq] at hgood ⊢
    exact ⟨hgood, hparent, hcopy⟩
  · rw [heq] at hgood ⊢
    have horigin := fun j => origin_link hpe' l.table.nextId j
    refine ⟨hgood, fun i c p => ?_, fun c hc => ?_⟩
    · show ((l.table.grow e).link pid pe' l.table.nextId).origin i = _ → ∃ pc q,
        ((l.table.grow e).link pid pe' l.table.nextId).origin p = _ ∧ _
      rw [horigin, horigin]
      exact hparent i c p
    · rcases List.mem_cons.mp hc with rfl | hc
      · refine ⟨l.table.nextId, e.cap, e.parent, rfl, ?_, ?_⟩
        · show ((l.table.grow e).link pid pe' l.table.nextId).origin _ = _
          rw [horigin, origin_grow hfull, if_pos rfl]
        · rw [he]
          exact ⟨rfl, rfl, rfl⟩
      · obtain ⟨i, k, q, hi, hk, heq'⟩ := hcopy c hc
        exact ⟨i, k, q, hi, (horigin i).trans hk, heq'⟩

theorem revoke (h : l.Lawful) (c : Capability) : (l.step (.revoke c)).Lawful := by
  have hgood := Ledger.good_revoke h.good c
  rw [Ledger.step] at hgood ⊢
  cases hid : c.parentId with
  | none =>
    simp only [Cap.revoke, hid] at hgood ⊢
    exact h
  | some id =>
    obtain ⟨n, t', hr, S, rfl, -⟩ := revoke_of_parentId (t := l.table) hid
    rw [hr _ (Nat.lt_succ_self _)] at hgood ⊢
    exact h.of_origin hgood fun i => origin_mark l.table S i

theorem step (h : l.Lawful) {op : DeriveOp} (hw : l.table.nextId + 1 < 2 ^ 64)
    (hop : l.FromIssued op) : (l.step op).Lawful := by
  cases op with
  | mint o ty r ow => exact h.mint hw o ty r ow
  | derive par r ow => exact h.derive hw hop r ow
  | revoke c => exact h.revoke c

/-- Parent links lead to a root from everywhere. -/
theorem lineage (h : l.Lawful) : ∀ i e, l.table.get i = some e → ∃ r, l.table.Lineage i r := by
  intro i
  -- the indices go down, so the walk ends
  induction i using Nat.strong_induction_on with
  | _ i ih =>
    intro e he
    cases hp : e.parent with
    | none => exact ⟨i, .root he hp⟩
    | some p =>
      have horigin : l.table.origin i = some (e.cap, some p) :=
        origin_eq_some.mpr ⟨e, he, rfl, hp⟩
      obtain ⟨pc, q, hpc, hlt, hnarrow⟩ := h.parent i e.cap p horigin
      obtain ⟨pe, hpe, rfl, -⟩ := origin_eq_some.mp hpc
      obtain ⟨r, hr⟩ := ih p hlt pe hpe
      exact ⟨r, .child he hp hpe hlt hnarrow hr⟩

end Ledger.Lawful

/-! ## Runs -/

theorem lawful_run (ops : List DeriveOp) (hops : ops.length < 2 ^ 64)
    (hissued : Run.Along Ledger.step Ledger.FromIssued Ledger.boot ops) :
    (runDerive ops).Lawful := by
  have hboth : Run.Along Ledger.step
      (fun l op => l.table.nextId + 1 < 2 ^ 64 ∧ l.FromIssued op) Ledger.boot ops :=
    Run.along_and (along_no_wrap ops Ledger.boot (by simpa [Ledger.boot, DeriveTable.new] using hops))
      hissued
  exact Run.exec_invariant_along (fun l op h hC => h.step hC.1 hC.2) Ledger.Lawful.boot hboth

/-- **No rights amplification.**  After any sequence of fewer than `2 ^ 64` calls in which
`derive_cap` is given capabilities that were handed out, parent links lead from every entry to a
minted root, with strictly decreasing indices, and no entry has a right its parent lacks, or
another object or type than its root; and every capability handed out is, object, type and
rights, its entry's, and so within its root's. -/
theorem no_amplification (ops : List DeriveOp) (hops : ops.length < 2 ^ 64)
    (hissued : Run.Along Ledger.step Ledger.FromIssued Ledger.boot ops) :
    (∀ i e, (runDerive ops).table.get i = some e → ∃ r re,
      (runDerive ops).table.Lineage i r ∧ (runDerive ops).table.get r = some re ∧
        re.parent = none ∧ e.cap.Narrows re.cap) ∧
    (∀ c ∈ (runDerive ops).issued, ∃ i r re, c.parentId = some i ∧
      (runDerive ops).table.Lineage i r ∧ (runDerive ops).table.get r = some re ∧
        re.parent = none ∧ c.Narrows re.cap) := by
  have hlaw := lawful_run ops hops hissued
  have hlineage : ∀ i e, (runDerive ops).table.get i = some e → ∃ r re,
      (runDerive ops).table.Lineage i r ∧ (runDerive ops).table.get r = some re ∧
        re.parent = none ∧ e.cap.Narrows re.cap := by
    intro i e he
    obtain ⟨r, hr⟩ := hlaw.lineage i e he
    obtain ⟨e', re, he', hre, hroot, hnarrow⟩ := hr.ends
    rw [he] at he'
    cases he'
    exact ⟨r, re, hr, hre, hroot, hnarrow⟩
  refine ⟨hlineage, fun c hc => ?_⟩
  obtain ⟨i, k, q, hi, hk, hobj, htype, hrights⟩ := hlaw.copy c hc
  obtain ⟨e, he, rfl, -⟩ := origin_eq_some.mp hk
  obtain ⟨r, re, hr, hre, hroot, hnarrow⟩ := hlineage i e he
  exact ⟨i, r, re, hi, hr, hre, hroot,
    (Capability.Narrows.of_eq hobj.symm htype.symm hrights.symm).trans hnarrow⟩

/-- A root, a child and a grandchild. -/
def threeGenerations : List DeriveOp :=
  [.mint 3 .endpoint ⟨0x18#16⟩ 0,
    .derive ⟨3, .endpoint, ⟨0x18#16⟩, some 0⟩ ⟨CapRights.send⟩ 7,
    .derive ⟨3, .endpoint, ⟨CapRights.send⟩, some 1⟩ ⟨CapRights.send⟩ 9]

theorem no_amplification_threeGenerations :
    threeGenerations.length < 2 ^ 64 ∧
    Run.Along Ledger.step Ledger.FromIssued Ledger.boot threeGenerations ∧
    ∀ c ∈ (runDerive threeGenerations).issued, ∃ i r re, c.parentId = some i ∧
      (runDerive threeGenerations).table.Lineage i r ∧
        (runDerive threeGenerations).table.get r = some re ∧ re.parent = none ∧
          c.Narrows re.cap := by
  have hissued : Run.Along Ledger.step Ledger.FromIssued Ledger.boot threeGenerations := by
    refine ⟨trivial, ?_, ?_, trivial⟩
    · show _ ∈ (runDerive (threeGenerations.take 1)).issued
      decide
    · show _ ∈ (runDerive (threeGenerations.take 2)).issued
      decide
  exact ⟨by decide, hissued, (no_amplification threeGenerations (by decide) hissued).2⟩

/-- A root with the right to send, and a child filed under it by a capability nobody handed
out. -/
def forgedParent : List DeriveOp :=
  [.mint 3 .endpoint ⟨CapRights.send⟩ 0,
    .derive (Capability.derived 3 .endpoint ⟨0x1f#16⟩ 0) ⟨CapRights.call⟩ 7]

/-- **A forged capability amplifies rights**: the child has a right its parent lacks. -/
theorem forged_amplifies : ∃ e pe, (runDerive forgedParent).table.get 1 = some e ∧
    e.parent = some 0 ∧ (runDerive forgedParent).table.get 0 = some pe ∧
    pe.cap.rights.contains e.cap.rights.bits = false := by
  have hfacts : ((runDerive forgedParent).table.get 1).map (fun e => (e.parent, e.cap.rights)) =
      some (some 0, ⟨CapRights.call⟩) ∧
      ((runDerive forgedParent).table.get 0).map (fun e => e.cap.rights) =
        some ⟨CapRights.send⟩ := by decide
  obtain ⟨e, he, heq⟩ := Option.map_eq_some_iff.mp hfacts.1
  obtain ⟨pe, hpe, hrights⟩ := Option.map_eq_some_iff.mp hfacts.2
  simp only [Prod.mk.injEq] at heq
  refine ⟨e, pe, he, heq.1, hpe, ?_⟩
  rw [hrights, heq.2]
  decide

end QuackOS.Cap
