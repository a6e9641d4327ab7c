import QuackOS.Cap.Derive

/-!
# The derivation tree over whole runs

The invariant of the derivation table (`WellFormed`): every entry sits below the allocation
counter, parent links point strictly downwards to used entries, and every child array entry
is matched by the parent link of the child.  It holds after every sequence of `mint_cap`,
`derive_cap` and `revoke` calls short enough not to wrap the counter
(`wellFormed_run`), and it is what makes revocation exact (`revoke_exact`): the recursion goes
down the child arrays, the check goes up the parent links, and the two agree.
-/

namespace QuackOS.Cap

open DeriveTable

/-! ## What each call does to the table -/

namespace DeriveTable

/-- The table after `alloc_id`. -/
def bump (t : DeriveTable) : DeriveTable := { t with nextId := (t.nextId + 1) % 2 ^ 64 }

@[simp] theorem get_bump (t : DeriveTable) (i : Nat) : t.bump.get i = t.get i := rfl

@[simp] theorem bump_nextId (t : DeriveTable) :
    t.bump.nextId = (t.nextId + 1) % 2 ^ 64 := rfl

@[simp] theorem put_nextId (t : DeriveTable) (i : Nat) (e : DeriveEntry) :
    (t.put i e).nextId = t.nextId := rfl

/-- The table after a successful `insert` of `e`. -/
def grow (t : DeriveTable) (e : DeriveEntry) : DeriveTable := t.bump.put t.nextId e

theorem insert_eq (t : DeriveTable) (e : DeriveEntry) :
    t.insert e = if maxDerivations ≤ t.nextId then (none, t.bump) else (some t.nextId, t.grow e) :=
  rfl

theorem get_grow {t : DeriveTable} (h : t.nextId < maxDerivations) (e : DeriveEntry) (i : Nat) :
    (t.grow e).get i = if i = t.nextId then some e else t.get i := by
  rw [grow, get_put _ _ _ _ h, get_bump]

/-- The table after a successful `add_child` of `c` to the entry `p` at index `i`. -/
def link (t : DeriveTable) (i : Nat) (p : DeriveEntry) (c : Nat) : DeriveTable :=
  t.put i { p with
    children := Function.update p.children p.childCount (some c)
    childCount := p.childCount + 1 }

theorem addChild_of_get {t : DeriveTable} {i : Nat} {p : DeriveEntry} (h : t.get i = some p)
    (c : Nat) : t.addChild i c =
      if maxChildren ≤ p.childCount then (.error .cnodeFull, t) else (.ok (), t.link i p c) := by
  simp only [addChild, h, link]

end DeriveTable

/-- What `mint_cap` can do: fail on a full table, or add one root entry. -/
theorem mintCap_cases (t : DeriveTable) (o : Nat) (ty : CapType) (r : CapRights)
    (ow : ProcessId) :
    (maxDerivations ≤ t.nextId ∧ mintCap t o ty r ow = (.error .cnodeFull, t.bump)) ∨
    (t.nextId < maxDerivations ∧
      mintCap t o ty r ow = (.ok { Capability.new o ty r with parentId := some t.nextId },
        t.grow (DeriveEntry.new (Capability.new o ty r) none ow))) := by
  simp only [mintCap, insert_eq]
  by_cases h : maxDerivations ≤ t.nextId
  · exact Or.inl ⟨h, by simp [h]⟩
  · exact Or.inr ⟨by omega, by simp [h]⟩

/-- What `derive_cap` can do: refuse and change nothing, fail on a full table, leave an
entry behind that its parent does not list, or add a listed child. -/
theorem deriveCap_cases (t : DeriveTable) (par : Capability) (r : CapRights)
    (ow : ProcessId) :
    (∃ err, deriveCap t par r ow = (.error err, t)) ∨
    (deriveCap t par r ow = (.error .tableFull, t.bump)) ∨
    (∃ pid pe e, par.parentId = some pid ∧ t.get pid = some pe ∧ pe.revoked = false ∧
      t.nextId < maxDerivations ∧ par.rights.contains r.bits = true ∧
      e = DeriveEntry.new (Capability.derived par.objId par.capType r pid) (some pid) ow ∧
      (deriveCap t par r ow = (.error .tableFull, t.grow e) ∨
        ∃ pe', (t.grow e).get pid = some pe' ∧ deriveCap t par r ow =
          (.ok { Capability.derived par.objId par.capType r pid with parentId := some t.nextId },
            (t.grow e).link pid pe' t.nextId))) := by
  unfold deriveCap
  by_cases hr : par.rights.contains r.bits = true
  · simp only [hr, Bool.not_true, Bool.false_eq_true, if_false]
    cases hp : par.parentId with
    | none => exact Or.inl ⟨_, rfl⟩
    | some pid =>
      cases hg : t.get pid with
      | none => exact Or.inl ⟨.parentRevoked, by simp only [hg]⟩
      | some pe =>
        simp only [hg]
        by_cases hrev : pe.revoked = true
        · exact Or.inl ⟨_, by simp only [hrev, if_true]; rfl⟩
        · simp only [hrev, if_false, insert_eq, Bool.false_eq_true]
          by_cases hfull : maxDerivations ≤ t.nextId
          · exact Or.inr (Or.inl (by simp only [hfull, if_true]))
          · refine Or.inr (Or.inr ⟨pid, pe, _, rfl, hg, by simpa using hrev, by omega, trivial, rfl, ?_⟩)
            simp only [hfull, if_false]
            set e := DeriveEntry.new (Capability.derived par.objId par.capType r pid) (some pid) ow
            obtain ⟨pe', hpe'⟩ : ∃ pe', (t.grow e).get pid = some pe' := by
              rw [get_grow (by omega)]
              split
              · exact ⟨_, rfl⟩
              · exact ⟨_, hg⟩
            rw [addChild_of_get hpe']
            by_cases hc : maxChildren ≤ pe'.childCount
            · exact Or.inl (by simp only [hc, if_true])
            · exact Or.inr ⟨pe', hpe', by simp only [hc, if_false]⟩
  · exact Or.inl ⟨_, by simp only [hr, Bool.not_false, if_true]; rfl⟩

/-! ## The invariant -/

/-- The derivation table's invariant. -/
structure DeriveTable.WellFormed (t : DeriveTable) : Prop where
  /-- Every used index is below the allocation counter. -/
  lt_nextId : ∀ i e, t.get i = some e → i < t.nextId
  /-- A parent was allocated before its child, and is still there. -/
  parent_lt : ∀ i e p, t.get i = some e → e.parent = some p → p < i ∧ t.get p ≠ none
  /-- What a child array lists points back. -/
  childLink : ∀ i c, t.ChildLink i c → t.ParentLink c i

namespace DeriveTable

theorem wellFormed_new : WellFormed new where
  lt_nextId i e h := by simp [get, new] at h
  parent_lt i e p h := by simp [get, new] at h
  childLink i c h := by
    obtain ⟨e, k, he, -⟩ := h
    simp [get, new] at he

theorem WellFormed.bump {t : DeriveTable} (h : t.WellFormed) (hw : t.nextId + 1 < 2 ^ 64) :
    t.bump.WellFormed where
  lt_nextId i e he := by
    have := h.lt_nextId i e he
    rw [bump_nextId, Nat.mod_eq_of_lt hw]
    omega
  parent_lt := h.parent_lt
  childLink := h.childLink

theorem WellFormed.get_nextId {t : DeriveTable} (h : t.WellFormed) : t.get t.nextId = none := by
  cases hg : t.get t.nextId with
  | none => rfl
  | some e => exact absurd (h.lt_nextId _ _ hg) (lt_irrefl _)

/-- The parent link of a new entry, and of every old one. -/
theorem parentLink_grow {t : DeriveTable} (hfull : t.nextId < maxDerivations)
    (e : DeriveEntry) (d p : Nat) :
    (t.grow e).ParentLink d p ↔
      if d = t.nextId then e.parent = some p else t.ParentLink d p := by
  unfold ParentLink
  rw [get_grow hfull]
  split
  · simp
  · rfl

theorem WellFormed.grow {t : DeriveTable} (h : t.WellFormed) (hw : t.nextId + 1 < 2 ^ 64)
    (hfull : t.nextId < maxDerivations) {e : DeriveEntry} (hcc : e.childCount = 0)
    (hpar : ∀ p, e.parent = some p → t.get p ≠ none) : (t.grow e).WellFormed where
  lt_nextId i e' he := by
    have hn : (t.grow e).nextId = t.nextId + 1 := by
      rw [DeriveTable.grow, put_nextId, bump_nextId, Nat.mod_eq_of_lt hw]
    rw [hn]
    rw [get_grow hfull] at he
    split at he
    · omega
    · have := h.lt_nextId i e' he
      omega
  parent_lt i e' p he hp := by
    rw [get_grow hfull] at he ⊢
    split at he
    · rename_i hi
      cases he
      have hpn := hpar p hp
      obtain ⟨pe, hpe⟩ := Option.ne_none_iff_exists'.mp hpn
      have hlt := h.lt_nextId p pe hpe
      refine ⟨by omega, ?_⟩
      rw [if_neg (by omega)]
      exact hpn
    · obtain ⟨hlt, hpn⟩ := h.parent_lt i e' p he hp
      refine ⟨hlt, ?_⟩
      split
      · simp
      · exact hpn
  childLink i c hic := by
    obtain ⟨e', k, he, hk, hkc⟩ := hic
    rw [get_grow hfull] at he
    split at he
    · cases he
      omega
    · have hlink := h.childLink i c ⟨e', k, he, hk, hkc⟩
      rw [parentLink_grow hfull]
      split
      · rename_i hc
        obtain ⟨ce, hce, -⟩ := hlink
        rw [hc, h.get_nextId] at hce
        cases hce
      · exact hlink

/-- The entry `derive_cap` inserts keeps the table well formed. -/
theorem WellFormed.grow_child {t : DeriveTable} (h : t.WellFormed) (hw : t.nextId + 1 < 2 ^ 64)
    (hfull : t.nextId < maxDerivations) {pid : Nat} {pe e : DeriveEntry}
    (hpe : t.get pid = some pe) {cap : Capability} {ow : ProcessId}
    (he : e = DeriveEntry.new cap (some pid) ow) : (t.grow e).WellFormed := by
  refine h.grow hw hfull (by rw [he]; rfl) (fun p hp => ?_)
  rw [he] at hp
  cases hp
  rw [hpe]
  simp

theorem get_link {t : DeriveTable} {i : Nat} {p : DeriveEntry} (hp : t.get i = some p)
    (c j : Nat) : (t.link i p c).get j = if j = i then some { p with
      children := Function.update p.children p.childCount (some c)
      childCount := p.childCount + 1 } else t.get j :=
  get_put _ _ _ _ (lt_of_get hp)

theorem parentLink_link {t : DeriveTable} {i : Nat} {p : DeriveEntry} (hp : t.get i = some p)
    (c : Nat) : (t.link i p c).ParentLink = t.ParentLink := by
  funext d q
  unfold ParentLink
  rw [get_link hp]
  split
  · rename_i hd
    rw [hd, hp]
    simp
  · rfl

theorem WellFormed.link {t : DeriveTable} (h : t.WellFormed) {i : Nat} {p : DeriveEntry}
    (hp : t.get i = some p) {c : Nat} (hc : t.ParentLink c i) : (t.link i p c).WellFormed where
  lt_nextId j e he := by
    rw [get_link hp] at he
    split at he
    · rename_i hj
      rw [hj]
      exact h.lt_nextId i p hp
    · exact h.lt_nextId j e he
  parent_lt j e q he hq := by
    rw [get_link hp] at he ⊢
    have hpl : t.ParentLink j q := by
      rw [← parentLink_link hp c]
      exact ⟨e, by rw [get_link hp]; exact he, hq⟩
    obtain ⟨e', he', hq'⟩ := hpl
    obtain ⟨hlt, hne⟩ := h.parent_lt j e' q he' hq'
    refine ⟨hlt, ?_⟩
    split
    · simp
    · exact hne
  childLink j d hjd := by
    obtain ⟨e, k, he, hk, hkd⟩ := hjd
    rw [parentLink_link hp]
    rw [get_link hp] at he
    split at he
    · rename_i hj
      cases he
      simp only at hk hkd
      by_cases hkc : k = p.childCount
      · rw [hkc, Function.update_self, Option.some.injEq] at hkd
        rw [hj, ← hkd]
        exact hc
      · rw [Function.update_of_ne hkc] at hkd
        rw [hj]
        exact h.childLink i d ⟨p, k, hp, by omega, hkd⟩
    · exact h.childLink j d ⟨e, k, he, hk, hkd⟩

theorem WellFormed.mark {t : DeriveTable} (h : t.WellFormed) (S : Finset Nat) :
    (t.mark S).WellFormed where
  lt_nextId i e he := by
    rw [get_mark] at he
    obtain ⟨e', he', -⟩ := Option.map_eq_some_iff.mp he
    exact h.lt_nextId i e' he'
  parent_lt i e p he hp := by
    rw [get_mark] at he ⊢
    obtain ⟨e', he', rfl⟩ := Option.map_eq_some_iff.mp he
    obtain ⟨hlt, hne⟩ := h.parent_lt i e' p he' hp
    exact ⟨hlt, by simpa using hne⟩
  childLink i c hic := by
    rw [childLink_mark] at hic
    rw [parentLink_mark]
    exact h.childLink i c hic

/-- In a well-formed table a path along child links is a derivation. -/
theorem WellFormed.derived_of_reach {t : DeriveTable} (h : t.WellFormed) {i j : Nat}
    (hij : Relation.ReflTransGen t.ChildLink i j) : t.Derived i j := by
  induction hij with
  | refl => exact Relation.ReflTransGen.refl
  | tail _ hlink ih => exact Relation.ReflTransGen.head (h.childLink _ _ hlink) ih

/-- **`check_chain_recursive` terminates** on a well-formed table: the index falls at every
step, so `id + 1` steps are enough. -/
theorem WellFormed.checkChain_isSome {t : DeriveTable} (h : t.WellFormed) :
    ∀ (fuel id : Nat), id < fuel → (checkChainRecursive fuel t id).isSome = true := by
  intro fuel
  induction fuel with
  | zero => intro id hid; omega
  | succ fuel ih =>
    intro id hid
    rw [checkChainRecursive]
    cases he : t.get id with
    | none => rfl
    | some e =>
      simp only []
      split
      · rfl
      · cases hp : e.parent with
        | none => rfl
        | some p =>
          have := (h.parent_lt id e p he hp).1
          exact ih p (by omega)

end DeriveTable

/-! ## Runs -/

/-- The three calls that change the derivation table, with all their arguments.  The
capability handed to `derive_cap` and `revoke` is any value at all. -/
inductive DeriveOp
  | mint (objId : Nat) (capType : CapType) (rights : CapRights) (owner : ProcessId)
  | derive (parent : Capability) (newRights : CapRights) (owner : ProcessId)
  | revoke (cap : Capability)

/-- The table together with the capabilities returned so far. -/
structure Ledger where
  table : DeriveTable
  issued : List Capability

/-- The state at boot. -/
def Ledger.boot : Ledger := { table := DeriveTable.new, issued := [] }

/-- Record what a call returned and the table it left. -/
def Ledger.record {ε : Type} (l : Ledger) (r : Except ε Capability × DeriveTable) : Ledger :=
  match r with
  | (.error _, t) => { l with table := t }
  | (.ok c, t) => { table := t, issued := c :: l.issued }

/-- One call. -/
def Ledger.step (l : Ledger) : DeriveOp → Ledger
  | .mint o ty r ow => l.record (mintCap l.table o ty r ow)
  | .derive par r ow => l.record (deriveCap l.table par r ow)
  | .revoke c =>
      match Cap.revoke (maxDerivations + 1) l.table c with
      | none => l
      | some (_, t) => { l with table := t }

/-- The state after a sequence of calls from boot. -/
def runDerive (ops : List DeriveOp) : Ledger := Run.exec Ledger.step Ledger.boot ops

/-- The table is well formed and every capability handed out has an entry in it. -/
structure Ledger.Good (l : Ledger) : Prop where
  wellFormed : l.table.WellFormed
  issued : ∀ c ∈ l.issued, ∃ id, c.parentId = some id ∧ l.table.get id ≠ none

theorem Ledger.good_boot : Ledger.boot.Good where
  wellFormed := DeriveTable.wellFormed_new
  issued c hc := by simp [boot] at hc

/-- A capability whose entry is in the table keeps it as the table grows. -/
theorem DeriveTable.get_grow_ne_none {t : DeriveTable} (hfull : t.nextId < maxDerivations)
    (e : DeriveEntry) {i : Nat} (h : t.get i ≠ none) : (t.grow e).get i ≠ none := by
  rw [get_grow hfull]
  split
  · simp
  · exact h

theorem DeriveTable.get_link_ne_none {t : DeriveTable} {j : Nat} {p : DeriveEntry}
    (hp : t.get j = some p) (c : Nat) {i : Nat} (h : t.get i ≠ none) :
    (t.link j p c).get i ≠ none := by
  rw [get_link hp]
  split
  · simp
  · exact h

/-- A ledger stays good when the table changes and no used index is lost. -/
theorem Ledger.Good.of_table {l : Ledger} (h : l.Good) {t : DeriveTable} (ht : t.WellFormed)
    (hmono : ∀ i, l.table.get i ≠ none → t.get i ≠ none) :
    Ledger.Good { l with table := t } where
  wellFormed := ht
  issued c hc := by
    obtain ⟨id, hid, hne⟩ := h.issued c hc
    exact ⟨id, hid, hmono id hne⟩

/-- And when one more capability is handed out whose entry is there. -/
theorem Ledger.Good.issue {l : Ledger} (h : l.Good) {t : DeriveTable} (ht : t.WellFormed)
    (hmono : ∀ i, l.table.get i ≠ none → t.get i ≠ none) {c : Capability} {id : Nat}
    (hid : c.parentId = some id) (hne : t.get id ≠ none) :
    Ledger.Good { table := t, issued := c :: l.issued } where
  wellFormed := ht
  issued d hd := by
    rcases List.mem_cons.mp hd with rfl | hd
    · exact ⟨id, hid, hne⟩
    · obtain ⟨id', hid', hne'⟩ := h.issued d hd
      exact ⟨id', hid', hmono id' hne'⟩

theorem Ledger.good_mint {l : Ledger} (h : l.Good) (hw : l.table.nextId + 1 < 2 ^ 64)
    (o : Nat) (ty : CapType) (r : CapRights) (ow : ProcessId) :
    (l.record (mintCap l.table o ty r ow)).Good := by
  rcases mintCap_cases l.table o ty r ow with ⟨-, heq⟩ | ⟨hfull, heq⟩
  · rw [heq]
    exact h.of_table (h.wellFormed.bump hw) (fun _ hne => hne)
  · rw [heq]
    refine h.issue (h.wellFormed.grow hw hfull rfl (fun p hp => by cases hp))
      (fun _ hne => get_grow_ne_none hfull _ hne) rfl ?_
    rw [get_grow hfull, if_pos rfl]
    simp

theorem Ledger.good_derive {l : Ledger} (h : l.Good) (hw : l.table.nextId + 1 < 2 ^ 64)
    (par : Capability) (r : CapRights) (ow : ProcessId) :
    (l.record (deriveCap l.table par r ow)).Good := by
  rcases deriveCap_cases l.table par r ow with ⟨err, heq⟩ | heq |
    ⟨pid, pe, e, -, hpe, -, hfull, -, he, hres⟩
  · rw [heq]
    exact h
  · rw [heq]
    exact h.of_table (h.wellFormed.bump hw) (fun _ hne => hne)
  · have hgrow := h.wellFormed.grow_child hw hfull hpe he
    have hnew : (l.table.grow e).get l.table.nextId = some e := by
      rw [get_grow hfull, if_pos rfl]
    rcases hres with heq | ⟨pe', hpe', heq⟩
    · rw [heq]
      exact h.of_table hgrow (fun _ hne => get_grow_ne_none hfull _ hne)
    · rw [heq]
      have hlink : (l.table.grow e).ParentLink l.table.nextId pid :=
        ⟨e, hnew, by rw [he]; rfl⟩
      refine h.issue (hgrow.link hpe' hlink)
        (fun _ hne => get_link_ne_none hpe' _ (get_grow_ne_none hfull _ hne)) rfl ?_
      exact get_link_ne_none hpe' _ (by rw [hnew]; simp)

theorem Ledger.good_revoke {l : Ledger} (h : l.Good) (c : Capability) :
    (l.step (.revoke c)).Good := by
  rw [Ledger.step]
  cases hid : c.parentId with
  | none =>
    simp only [Cap.revoke, hid]
    exact h
  | some id =>
    obtain ⟨n, t', hr, S, rfl, -⟩ := revoke_of_parentId (t := l.table) hid
    rw [hr _ (Nat.lt_succ_self _)]
    refine h.of_table (h.wellFormed.mark S) (fun i hne => ?_)
    rw [get_mark]
    simpa using hne

/-- One call keeps the ledger good, unless it wraps the allocation counter. -/
theorem Ledger.good_step (l : Ledger) (op : DeriveOp) (h : l.Good)
    (hw : l.table.nextId + 1 < 2 ^ 64) : (l.step op).Good := by
  cases op with
  | mint o ty r ow => exact l.good_mint h hw o ty r ow
  | derive par r ow => exact l.good_derive h hw par r ow
  | revoke c => exact good_revoke h c

/-- One call takes at most one index. -/
theorem Ledger.nextId_step_le (l : Ledger) (op : DeriveOp) :
    (l.step op).table.nextId ≤ l.table.nextId + 1 := by
  have hmod : (l.table.nextId + 1) % 2 ^ 64 ≤ l.table.nextId + 1 := Nat.mod_le _ _
  cases op with
  | mint o ty r ow =>
    rw [Ledger.step]
    rcases mintCap_cases l.table o ty r ow with ⟨-, heq⟩ | ⟨-, heq⟩ <;> rw [heq] <;> exact hmod
  | derive par r ow =>
    rw [Ledger.step]
    rcases deriveCap_cases l.table par r ow with ⟨err, heq⟩ | heq |
      ⟨pid, pe, e, -, -, -, -, -, -, heq | ⟨pe', -, heq⟩⟩
    · rw [heq]
      exact Nat.le_succ _
    all_goals rw [heq]; exact hmod
  | revoke c =>
    rw [Ledger.step]
    cases hid : c.parentId with
    | none =>
      simp only [Cap.revoke, hid]
      exact Nat.le_succ _
    | some id =>
      obtain ⟨n, t', hr, S, rfl, -⟩ := revoke_of_parentId (t := l.table) hid
      rw [hr _ (Nat.lt_succ_self _)]
      exact Nat.le_succ _

/-- A run of fewer than `2 ^ 64` calls never wraps the counter. -/
theorem along_no_wrap (ops : List DeriveOp) (l : Ledger)
    (h : l.table.nextId + ops.length < 2 ^ 64) :
    Run.Along Ledger.step (fun l _ => l.table.nextId + 1 < 2 ^ 64) l ops := by
  induction ops generalizing l with
  | nil => trivial
  | cons op ops ih =>
    simp only [List.length_cons] at h
    refine ⟨by omega, ih _ ?_⟩
    have := l.nextId_step_le op
    omega

/-- **The invariant over runs**: after any sequence of fewer than `2 ^ 64` calls the table is
well formed and every issued capability has its entry. -/
theorem good_run (ops : List DeriveOp) (h : ops.length < 2 ^ 64) : (runDerive ops).Good :=
  Run.exec_invariant_along Ledger.good_step Ledger.good_boot
    (along_no_wrap ops Ledger.boot (by simpa [Ledger.boot, DeriveTable.new] using h))

/-! ## Revocation is exact -/

/-- `DerivedCap t c d`: capability `d` is `c`, or was transitively derived from it, according
to the parent links `derive_cap` recorded in the table. -/
def DerivedCap (t : DeriveTable) (c d : Capability) : Prop :=
  ∃ i j, c.parentId = some i ∧ d.parentId = some j ∧ t.Derived i j

/-- **A call keeps the parent links.** -/
theorem Ledger.Good.parentLink_step {l : Ledger} (h : l.Good) (op : DeriveOp) {d p : Nat}
    (hlink : l.table.ParentLink d p) : (l.step op).table.ParentLink d p := by
  have hgrow : ∀ e, l.table.nextId < maxDerivations → (l.table.grow e).ParentLink d p := by
    intro e hfull
    rw [parentLink_grow hfull, if_neg]
    · exact hlink
    · rintro rfl
      obtain ⟨e', he', -⟩ := hlink
      rw [h.wellFormed.get_nextId] at he'
      cases he'
  cases op with
  | mint o ty r ow =>
    rw [Ledger.step]
    rcases mintCap_cases l.table o ty r ow with ⟨-, heq⟩ | ⟨hfull, heq⟩
    · rw [heq]
      exact hlink
    · rw [heq]
      exact hgrow _ hfull
  | derive par r ow =>
    rw [Ledger.step]
    rcases deriveCap_cases l.table par r ow with ⟨err, heq⟩ | heq |
      ⟨pid, pe, e, -, -, -, hfull, -, -, heq | ⟨pe', hpe', heq⟩⟩
    · rw [heq]
      exact hlink
    · rw [heq]
      exact hlink
    · rw [heq]
      exact hgrow e hfull
    · rw [heq]
      show ((l.table.grow e).link pid pe' l.table.nextId).ParentLink d p
      rw [parentLink_link hpe']
      exact hgrow e hfull
  | revoke c =>
    rw [Ledger.step]
    cases hid : c.parentId with
    | none =>
      simp only [Cap.revoke, hid]
      exact hlink
    | some id =>
      obtain ⟨n, t', hr, S, rfl, -⟩ := revoke_of_parentId (t := l.table) hid
      rw [hr _ (Nat.lt_succ_self _)]
      show (l.table.mark S).ParentLink d p
      rw [parentLink_mark]
      exact hlink

/-- So does a run. -/
theorem parentLink_run (ops more : List DeriveOp) (h : (ops ++ more).length < 2 ^ 64) {d p : Nat}
    (hlink : (runDerive ops).table.ParentLink d p) :
    (runDerive (ops ++ more)).table.ParentLink d p := by
  induction more using List.reverseRecOn with
  | nil =>
    rw [List.append_nil]
    exact hlink
  | append_singleton more op ih =>
    rw [← List.append_assoc, List.length_append] at h
    have hbefore : (ops ++ more).length < 2 ^ 64 := by omega
    rw [runDerive, ← List.append_assoc, Run.exec_append]
    exact (good_run _ hbefore).parentLink_step op (ih hbefore)

/-- **The links record the derivations.**  A capability that `derive_cap` returns has an index of
its own, and in every run from there on it is derived from the capability it was made from. -/
theorem derivedCap_of_deriveCap (ops more : List DeriveOp) {par c : Capability} {r : CapRights}
    {ow : ProcessId} {t' : DeriveTable} (h : (ops ++ .derive par r ow :: more).length < 2 ^ 64)
    (hderive : deriveCap (runDerive ops).table par r ow = (.ok c, t')) :
    (∀ d ∈ (runDerive ops).issued, d.parentId ≠ c.parentId) ∧
      DerivedCap (runDerive (ops ++ .derive par r ow :: more)).table par c := by
  have hgood := good_run ops (by rw [List.length_append] at h; omega)
  rcases deriveCap_cases (runDerive ops).table par r ow with ⟨err, heq⟩ | heq |
    ⟨pid, pe, e, hpid, -, -, hfull, -, he, heq | ⟨pe', hpe', heq⟩⟩
  · rw [hderive] at heq
    cases heq
  · rw [hderive] at heq
    cases heq
  · rw [hderive] at heq
    cases heq
  rw [hderive] at heq
  cases heq
  constructor
  · intro d hd hsame
    obtain ⟨id, hid, hne⟩ := hgood.issued d hd
    rw [hid] at hsame
    cases hsame
    exact hne hgood.wellFormed.get_nextId
  · have hlink : (runDerive (ops ++ [.derive par r ow])).table.ParentLink
        (runDerive ops).table.nextId pid := by
      rw [runDerive, Run.exec_append]
      show ((runDerive ops).record (deriveCap (runDerive ops).table par r ow)).table.ParentLink _ _
      rw [hderive]
      show ((_ : DeriveTable).link pid pe' _).ParentLink _ _
      rw [parentLink_link hpe', parentLink_grow hfull, if_pos rfl, he]
      rfl
    have hlater := parentLink_run (ops ++ [.derive par r ow]) more (by simpa using h) hlink
    rw [List.append_assoc, List.singleton_append] at hlater
    exact ⟨pid, _, hpid, rfl, Relation.ReflTransGen.single hlater⟩

/-- The indices whose revoked flag differs between two tables. -/
def flagChanges (t t' : DeriveTable) : Finset Nat :=
  (Finset.range maxDerivations).filter fun i => t'.isRevoked i ≠ t.isRevoked i

theorem flagChanges_mark {t : DeriveTable} {S : Finset Nat} (hS : S ⊆ t.live) :
    flagChanges t (t.mark S) = S := by
  ext i
  simp only [flagChanges, Finset.mem_filter, Finset.mem_range, isRevoked_mark]
  constructor
  · rintro ⟨-, hne⟩
    by_contra hi
    simp [hi] at hne
  · intro hi
    obtain ⟨e, he, hrev⟩ := mem_live.mp (hS hi)
    refine ⟨lt_of_get he, ?_⟩
    simp [isRevoked, he, hrev, hi]

/-- **Revocation is sound and complete.**  After any sequence of fewer than `2 ^ 64` calls,
revoking an issued capability `c` returns (with a count and a table that no larger amount of
fuel changes); from then on the grant chain of `c` and of everything derived from it is broken;
the check of every other issued capability is what it was; and the count is the number of
entries whose flag changed. -/
theorem revoke_exact (ops : List DeriveOp) (hops : ops.length < 2 ^ 64) (c : Capability)
    (hc : c ∈ (runDerive ops).issued) :
    ∃ n t',
      (∀ fuel, maxDerivations < fuel →
        revoke fuel (runDerive ops).table c = some (.ok n, t')) ∧
      (∀ d ∈ (runDerive ops).issued, DerivedCap (runDerive ops).table c d →
        ∀ fuel, maxDerivations < fuel →
          checkGrantChain fuel t' d = some (.error .grantChainBroken)) ∧
      (∀ d ∈ (runDerive ops).issued, ¬ DerivedCap (runDerive ops).table c d →
        ∀ fuel, maxDerivations < fuel →
          (checkGrantChain fuel t' d).isSome = true ∧
            checkGrantChain fuel t' d = checkGrantChain fuel (runDerive ops).table d) ∧
      n = (flagChanges (runDerive ops).table t').card := by
  have hgood := good_run ops hops
  set t := (runDerive ops).table with ht
  obtain ⟨cid, hcid, hcne⟩ := hgood.issued c hc
  obtain ⟨n, t', hr, S, rfl, hn, hS, hreach, hmarked⟩ := revoke_of_parentId (t := t) hcid
  have hrev : (t.mark S).isRevoked cid = true := hmarked hcne
  have hwf' : (t.mark S).WellFormed := hgood.wellFormed.mark S
  -- the walk from an issued capability always ends, before and after
  have hends : ∀ d ∈ (runDerive ops).issued, ∀ fuel, maxDerivations < fuel →
      (checkGrantChain fuel (t.mark S) d).isSome = true := by
    intro d hd fuel hfuel
    obtain ⟨did, hdid, hdne⟩ := hgood.issued d hd
    obtain ⟨e, he⟩ := Option.ne_none_iff_exists'.mp hdne
    simp only [checkGrantChain, hdid]
    exact hwf'.checkChain_isSome fuel did (lt_trans (lt_of_get he) hfuel)
  refine ⟨n, _, hr, ?_, ?_, ?_⟩
  · rintro d hd ⟨i, did, hi, hdid, hder⟩ fuel hfuel
    rw [hcid, Option.some.injEq] at hi
    subst hi
    obtain ⟨r, hres⟩ := Option.isSome_iff_exists.mp (hends d hd fuel hfuel)
    rw [hres]
    simp only [checkGrantChain, hdid] at hres
    rw [checkChainRecursive_of_derived ((derived_mark t S _ _).mpr hder) hrev fuel r hres]
  · intro d hd hnot fuel hfuel
    refine ⟨hends d hd fuel hfuel, ?_⟩
    obtain ⟨did, hdid, -⟩ := hgood.issued d hd
    simp only [checkGrantChain, hdid]
    refine checkChainRecursive_mark fuel did (fun i hi hder => hnot ⟨cid, did, hcid, hdid, ?_⟩)
    -- a marked entry above `d` would put `d` below `c`
    exact hder.trans (hgood.wellFormed.derived_of_reach (hreach i hi))
  · rw [flagChanges_mark hS]
    exact hn

/-- A root and one capability derived from it. -/
def rootAndChild : List DeriveOp :=
  [.mint 3 .endpoint ⟨0x18#16⟩ 0,
    .derive ⟨3, .endpoint, ⟨0x18#16⟩, some 0⟩ ⟨CapRights.send⟩ 7]

theorem revoke_exact_rootAndChild :
    rootAndChild.length < 2 ^ 64 ∧
    (⟨3, .endpoint, ⟨0x18#16⟩, some 0⟩ : Capability) ∈ (runDerive rootAndChild).issued ∧
    ∃ n t', (∀ fuel, maxDerivations < fuel → revoke fuel (runDerive rootAndChild).table
      ⟨3, .endpoint, ⟨0x18#16⟩, some 0⟩ = some (.ok n, t')) ∧
      n = (flagChanges (runDerive rootAndChild).table t').card := by
  have hmem : (⟨3, .endpoint, ⟨0x18#16⟩, some 0⟩ : Capability) ∈
      (runDerive rootAndChild).issued := by decide
  obtain ⟨n, t', h1, -, -, h4⟩ := revoke_exact rootAndChild (by decide) _ hmem
  exact ⟨by decide, hmem, n, t', h1, h4⟩

end QuackOS.Cap
