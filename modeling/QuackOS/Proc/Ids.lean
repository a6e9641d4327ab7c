import QuackOS.Lib.Run
import QuackOS.Proc.Server

/-!
# The ids in the process table

A record carries the id of its process, and `children_of` and the iteration over the table hand
that id out.  `insert` gives the id, but the record was built before it.

* `Coherent` — records carry the id under which they are found, and `len` counts them;
* `counted_step` — `len` is right in every run;
* `coherent_iff` — the ids are right exactly as long as only init is put into the table.
-/

namespace QuackOS.Proc

/-! ## The number of processes -/

/-- `len` is the number of occupied slots. -/
def ProcessTable.Counted (t : ProcessTable) : Prop := t.len = Slots.occupied maxProcesses t.slots

namespace ProcessTable

variable {t t' : ProcessTable} {pid : ProcessId} {info : ProcessInfo}

theorem Counted.insert (h : t.Counted) (hins : t.insert info = .ok (pid, t')) : t'.Counted := by
  cases hf : Slots.firstFree maxProcesses t.slots with
  | none =>
    rw [insert_of_full hf] at hins
    cases hins
  | some i =>
    obtain ⟨hfree, hlt, -⟩ := Slots.firstFree_eq_some.mp hf
    rw [insert_of_free hf] at hins
    cases hins
    exact (congrArg (· + 1) h).trans (Slots.occupied_insert hlt hfree info).symm

theorem Counted.update (h : t.Counted) (hget : t.get pid = some info) (info' : ProcessInfo) :
    Counted { t with slots := Function.update t.slots pid.index (some info') } := by
  obtain ⟨-, hlt, -, hs⟩ := get_eq_some.mp hget
  exact h.trans (Slots.occupied_replace hlt hs info').symm

theorem Counted.free (h : t.Counted) (hget : t.get pid = some info) :
    Counted { t with slots := Function.update t.slots pid.index none, len := t.len - 1 } := by
  obtain ⟨-, hlt, -, hs⟩ := get_eq_some.mp hget
  have hremove := Slots.occupied_remove hlt hs
  unfold Counted at h ⊢
  dsimp only
  omega

end ProcessTable

namespace ProcServer

variable {s : ProcServer}

theorem counted_registerProcess (h : s.processes.Counted) (parent : ProcessId) (as : ℕ)
    (name : List UInt8) (p : ProcessPriority) :
    (s.registerProcess parent as name p).2.processes.Counted := by
  unfold registerProcess
  split
  · exact h
  · cases hins : s.processes.insert (ProcessInfo.new .null name p as parent) with
    | error e => exact h
    | ok r => exact h.insert hins

theorem counted_registerAll (h : s.processes.Counted)
    (servers : List (ℕ × List UInt8 × ProcessPriority)) :
    (s.registerAll servers).2.processes.Counted := by
  induction servers generalizing s with
  | nil => exact h
  | cons a rest ih =>
    obtain ⟨as, name, p⟩ := a
    have hone := counted_registerProcess h initPid as name p
    unfold registerAll
    rcases hr : s.registerProcess initPid as name p with ⟨e | pid, s'⟩
    · rw [hr] at hone
      exact hone
    · rw [hr] at hone
      exact ih hone

theorem counted_bootstrap (h : s.processes.Counted) (as : ℕ)
    (servers : List (ℕ × List UInt8 × ProcessPriority)) :
    (s.bootstrap as servers).2.processes.Counted := by
  unfold bootstrap
  split
  · exact h
  · cases hins : s.processes.insert
        (ProcessInfo.new initPid initName ProcessPriority.system as .null) with
    | error e => exact h
    | ok r =>
      obtain ⟨pid, t⟩ := r
      have hall := counted_registerAll (s := { s with processes := t }) (h.insert hins) servers
      dsimp only
      rcases hr : registerAll { s with processes := t } servers with ⟨e | u, s'⟩
      · rw [hr] at hall
        exact hall
      · rw [hr] at hall
        exact hall

theorem counted_spawn (h : s.processes.Counted) (parent : ProcessId) (name : List UInt8) :
    (s.spawn parent name).2.processes.Counted := by
  unfold spawn
  cases s.processes.get parent with
  | none => exact h
  | some parentInfo =>
    dsimp only
    split
    · exact h
    · cases hins : s.processes.insert (ProcessInfo.new .null name s.defaultPriority 0 parent) with
      | error e => exact h
      | ok r =>
        obtain ⟨pid, t⟩ := r
        have ht : t.Counted := h.insert hins
        dsimp only
        split
        · exact ht
        · next info hget =>
          rw [ProcessTable.modify_of_get hget]
          exact ht.update hget _

theorem counted_exit (h : s.processes.Counted) (pid : ProcessId) (code : ℤ) :
    (s.exit pid code).2.processes.Counted := by
  cases hget : s.processes.get pid with
  | none =>
    simp only [exit, hget]
    exact h
  | some info =>
    cases halive : info.state.isAlive with
    | false =>
      simp only [exit, hget, halive, Bool.not_false, if_true]
      exact h
    | true =>
      rw [exit_of_alive hget halive]
      dsimp only
      split
      · exact h.update hget _
      · exact h.free hget

theorem counted_setState (h : s.processes.Counted) (pid : ProcessId) (st : ProcessState) :
    (s.setState pid st).2.processes.Counted := by
  cases hget : s.processes.get pid with
  | none =>
    simp only [setState, ProcessTable.setState, hget]
    exact h
  | some info =>
    rw [setState, ProcessTable.setState_of_get hget]
    exact h.update hget _

theorem counted_reap (h : s.processes.Counted) (parent child : ProcessId) :
    (s.reap parent child).2.processes.Counted := by
  unfold reap
  cases hget : s.processes.get child with
  | none => exact h
  | some info =>
    dsimp only
    split
    · exact h
    · split
      · exact h
      · rw [ProcessTable.remove_of_get hget]
        exact h.free hget

theorem counted_step (h : s.processes.Counted) (c : ProcCall) :
    (s.step c).processes.Counted := by
  cases c with
  | bootstrap as servers => exact counted_bootstrap h as servers
  | register parent as name p => exact counted_registerProcess h parent as name p
  | spawn parent name => exact counted_spawn h parent name
  | exit pid code => exact counted_exit h pid code
  | kill pid => exact counted_exit h pid (-9)
  | reap parent child => exact counted_reap h parent child
  | signal target sig =>
    have hdef : s.step (.signal target sig) = (s.sendSignal target sig).2 := rfl
    rw [hdef]
    unfold sendSignal
    cases s.processes.get target with
    | none => exact h
    | some info =>
      dsimp only
      split
      · exact h
      · split
        · exact counted_exit h target _
        · exact counted_setState h target _
        · split
          · exact counted_setState h target _
          · exact h
        · exact h

/-! ## Ids -/

/-- Every record carries the id under which it is found (the slot and the generation that
`insert` returned for it), so what `iter` and `children_of` hand out leads back to the record; and
the processes are counted. -/
structure Coherent (s : ProcServer) : Prop where
  labelled : ∀ i info, s.processes.slots i = some info →
    info.pid = ⟨i, s.processes.generations i⟩
  listed : ∀ info ∈ s.processes.iter, s.processes.get info.pid = some info
  children : ∀ parent id, id ∈ s.processes.childrenOf parent →
    ∃ info, s.processes.get id = some info ∧ info.pid = id ∧ info.parent = parent
  counted : s.processes.Counted

/-- The call puts no record into the table other than that of init: `spawn` and
`register_process` fail, and `bootstrap` is given no servers. -/
def OnlyInit (s : ProcServer) : ProcCall → Prop
  | .bootstrap _ systemServers => s.initialised = true ∨ systemServers = []
  | .register parent .. =>
      Slots.firstFree maxProcesses s.processes.slots = none ∨
        (parent.isNull = false ∧ s.processes.get parent = none)
  | .spawn parent _ =>
      Slots.firstFree maxProcesses s.processes.slots = none ∨
        ∀ info, s.processes.get parent = some info → info.state.isAlive = false
  | _ => True

/-- What the table is like while only init is put into it. -/
structure Labelled (s : ProcServer) : Prop where
  labelled : ∀ i info, s.processes.slots i = some info →
    i < maxProcesses ∧ info.pid = ⟨i, s.processes.generations i⟩ ∧ info.pid.isNull = false
  counted : s.processes.Counted
  /-- Before `bootstrap` the table is as new. -/
  fresh : s.initialised = false →
    s.processes.slots = (fun _ => none) ∧ s.processes.generations = fun _ => 0

theorem Labelled.coherent (h : s.Labelled) : s.Coherent := by
  have hlisted : ∀ info ∈ s.processes.iter, s.processes.get info.pid = some info := by
    intro info hinfo
    obtain ⟨i, hlt, hs⟩ := ProcessTable.mem_iter.mp hinfo
    obtain ⟨-, hpid, hnull⟩ := h.labelled i info hs
    exact ProcessTable.get_eq_some.mpr ⟨hnull, by rwa [hpid], by rw [hpid], by rwa [hpid]⟩
  refine ⟨fun i info hs => (h.labelled i info hs).2.1, hlisted, fun parent id hid => ?_, h.counted⟩
  obtain ⟨info, hinfo, rfl⟩ := List.mem_map.mp hid
  obtain ⟨hinfo, hparent⟩ := List.mem_filter.mp hinfo
  exact ⟨info, hlisted info hinfo, rfl, by simpa using hparent⟩

theorem labelled_new (tasks : Sche.ThreadTable) : (new tasks).Labelled where
  labelled i info hs := by cases hs
  counted := (Slots.occupied_empty maxProcesses).symm
  fresh _ := ⟨rfl, rfl⟩

theorem initialised_exit (s : ProcServer) (pid : ProcessId) (code : ℤ) :
    (s.exit pid code).2.initialised = s.initialised := by
  cases hget : s.processes.get pid with
  | none => simp only [exit, hget]
  | some info =>
    cases halive : info.state.isAlive with
    | false => simp only [exit, hget, halive, Bool.not_false, if_true]
    | true => rw [exit_of_alive hget halive]

theorem initialised_setState (s : ProcServer) (pid : ProcessId) (st : ProcessState) :
    (s.setState pid st).2.initialised = s.initialised := by
  unfold setState
  split <;> rfl

theorem initialised_step {c : ProcCall} (hc : c.inserts = false) :
    (s.step c).initialised = s.initialised := by
  cases c with
  | bootstrap as servers => cases hc
  | register parent as name p => cases hc
  | spawn parent name => cases hc
  | exit pid code => exact initialised_exit s pid code
  | kill pid => exact initialised_exit s pid (-9)
  | reap parent child =>
    have hdef : s.step (.reap parent child) = (s.reap parent child).2 := rfl
    rw [hdef]
    unfold reap
    repeat' split
    all_goals rfl
  | signal target sig =>
    have hdef : s.step (.signal target sig) = (s.sendSignal target sig).2 := rfl
    rw [hdef]
    unfold sendSignal
    split
    · rfl
    · split
      · rfl
      · split
        · exact initialised_exit s target _
        · exact initialised_setState s target _
        · split
          · exact initialised_setState s target _
          · rfl
        · rfl

/-- A call that puts nothing into the table keeps the ids of the records. -/
theorem Labelled.of_not_inserts (h : s.Labelled) {c : ProcCall} (hc : c.inserts = false) :
    (s.step c).Labelled where
  labelled i info hs := by
    cases slotChange_step s c i with
    | same slot gen =>
      rw [gen]
      exact h.labelled i info (slot.symm.trans hs)
    | filled info' free slot alive call gen =>
      rw [hc] at call
      cases call
    | paused info' st old alive alive' slot gen =>
      rw [hs, Option.some.injEq] at slot
      rw [gen, slot]
      exact h.labelled i info' old
    | died info' code old alive ended slot gen =>
      rcases slot with hnone | ⟨hzombie, -⟩
      · rw [hs] at hnone
        cases hnone
      · rw [hs, Option.some.injEq] at hzombie
        rw [gen, hzombie]
        exact h.labelled i info' old
    | reaped info' old zombie call slot gen =>
      rw [hs] at slot
      cases slot
  counted := counted_step h.counted c
  fresh hinit := by
    obtain ⟨hslots, hgens⟩ := h.fresh ((initialised_step hc).symm.trans hinit)
    have hnone : ∀ i, s.processes.slots i = none := fun i => by rw [hslots]
    have hsame : ∀ i, (s.step c).processes.slots i = none ∧
        (s.step c).processes.generations i = s.processes.generations i := by
      intro i
      cases slotChange_step s c i with
      | same slot gen => exact ⟨slot.trans (hnone i), gen⟩
      | filled info free slot alive call gen =>
        rw [hc] at call
        cases call
      | paused info st old alive alive' slot gen => exact absurd (hnone i) (by simp [old])
      | died info code old alive ended slot gen => exact absurd (hnone i) (by simp [old])
      | reaped info old zombie call slot gen => exact absurd (hnone i) (by simp [old])
    exact ⟨funext fun i => (hsame i).1, by rw [← hgens]; exact funext fun i => (hsame i).2⟩

/-- The record of init, as `bootstrap` builds it. -/
def initInfo (as : ℕ) : ProcessInfo :=
  ProcessInfo.new initPid initName ProcessPriority.system as .null

/-- The table of a new server with init in it. -/
def initTable (s : ProcServer) (as : ℕ) : ProcessTable :=
  { slots := Function.update (fun _ => none) 0 (some (initInfo as))
    len := s.processes.len + 1
    generations := Function.update (fun _ => 0) 0 1 }

theorem firstFree_none : Slots.firstFree maxProcesses (fun _ => (none : Option ProcessInfo)) =
    some 0 :=
  Slots.firstFree_eq_some.mpr ⟨rfl, by decide, fun j hj => absurd hj (Nat.not_lt_zero j)⟩

theorem insert_init (h : s.processes.slots = (fun _ => none) ∧
    s.processes.generations = fun _ => 0) (as : ℕ) :
    s.processes.insert (initInfo as) = .ok (initPid, initTable s as) := by
  obtain ⟨hslots, hgens⟩ := h
  have hf : Slots.firstFree maxProcesses s.processes.slots = some 0 := by
    rw [hslots]
    exact firstFree_none
  have hnext : s.processes.nextGeneration 0 = 1 := by
    rw [ProcessTable.nextGeneration, hgens, if_pos rfl]
  rw [ProcessTable.insert_of_free hf, hnext, hslots, hgens]
  rfl

theorem Labelled.bootstrap (h : s.Labelled) (as : ℕ) : (s.step (.bootstrap as [])).Labelled := by
  cases hinit : s.initialised with
  | true =>
    have hsame : s.step (.bootstrap as []) = s := by
      simp only [step, ProcServer.bootstrap, hinit, if_true]
    rw [hsame]
    exact h
  | false =>
    have hafter : s.step (.bootstrap as []) =
        { s with processes := initTable s as, initialised := true } := by
      have hins : s.processes.insert _ = _ := insert_init (h.fresh hinit) as
      unfold initInfo at hins
      simp only [step, ProcServer.bootstrap, hinit, Bool.false_eq_true, if_false, hins, registerAll]
    have hcounted := counted_step h.counted (.bootstrap as [])
    rw [hafter] at hcounted ⊢
    refine ⟨fun i info hs => ?_, hcounted, fun hfalse => by cases hfalse⟩
    by_cases hi : i = 0
    · subst hi
      cases hs
      exact ⟨by decide, rfl, rfl⟩
    · simp only [initTable, Function.update_of_ne hi] at hs
      cases hs

theorem Labelled.step (h : s.Labelled) {c : ProcCall} (hc : s.OnlyInit c) :
    (s.step c).Labelled := by
  cases c with
  | bootstrap as servers =>
    rcases hc with hinit | rfl
    · have hsame : s.step (.bootstrap as servers) = s := by
        simp only [ProcServer.step, ProcServer.bootstrap, hinit, if_true]
      rw [hsame]
      exact h
    · exact h.bootstrap as
  | register parent as name p =>
    have hsame : s.step (.register parent as name p) = s := by
      simp only [ProcServer.step, registerProcess]
      rcases hc with hfull | ⟨hnull, hget⟩
      · rw [ProcessTable.insert_of_full hfull]
        split <;> rfl
      · rw [if_pos (by rw [hnull, hget]; rfl)]
    rw [hsame]
    exact h
  | spawn parent name =>
    have hsame : s.step (.spawn parent name) = s := by
      simp only [ProcServer.step, spawn]
      rcases hc with hfull | hdead
      · rw [ProcessTable.insert_of_full hfull]
        repeat' split
        all_goals first | rfl | contradiction
      · cases hget : s.processes.get parent with
        | none => rfl
        | some info =>
          dsimp only
          rw [hdead info hget]
          rfl
    rw [hsame]
    exact h
  | exit pid code => exact h.of_not_inserts rfl
  | kill pid => exact h.of_not_inserts rfl
  | signal target sig => exact h.of_not_inserts rfl
  | reap parent child => exact h.of_not_inserts rfl

/-! ## Records with the placeholder id -/

/-- A record that still has the null id it was built with does not lead back to itself. -/
theorem not_coherent_of_null {i : ℕ} {info : ProcessInfo} (hi : i < maxProcesses)
    (hs : s.processes.slots i = some info) (hpid : info.pid = .null) : ¬ s.Coherent := by
  intro h
  have hget := h.listed info (ProcessTable.mem_iter.mpr ⟨i, hi, hs⟩)
  rw [hpid] at hget
  cases hget

theorem registerProcess_of_free {parent : ProcessId} {i : ℕ}
    (hparent : parent.isNull = true ∨ s.processes.get parent ≠ none)
    (hf : Slots.firstFree maxProcesses s.processes.slots = some i) (as : ℕ) (name : List UInt8)
    (p : ProcessPriority) :
    ∃ pid s', s.registerProcess parent as name p = (.ok pid, s') ∧
      s'.processes.slots i = some (ProcessInfo.new .null name p as parent) := by
  have hguard : (!parent.isNull && (s.processes.get parent).isNone) = false := by
    rcases hparent with hnull | hget
    · rw [hnull]
      rfl
    · cases hg : s.processes.get parent with
      | none => exact absurd hg hget
      | some info => exact Bool.and_false _
  rw [registerProcess, hguard, ProcessTable.insert_of_free hf]
  exact ⟨_, _, rfl, Function.update_self ..⟩

theorem bootstrap_null (h : s.Labelled) (hinit : s.initialised = false) (as : ℕ)
    (a : ℕ × List UInt8 × ProcessPriority) (rest : List (ℕ × List UInt8 × ProcessPriority)) :
    ∃ info, (s.step (.bootstrap as (a :: rest))).processes.slots 1 = some info ∧
      info.pid = .null := by
  obtain ⟨as', name, p⟩ := a
  have hins : s.processes.insert _ = _ := insert_init (h.fresh hinit) as
  unfold initInfo at hins
  have hparent : (initTable s as).get initPid ≠ none := by
    simp [ProcessTable.get, initPid, initTable, ProcessId.isNull, maxProcesses]
  have hf : Slots.firstFree maxProcesses (initTable s as).slots = some 1 := by
    refine Slots.firstFree_eq_some.mpr ⟨rfl, by decide, fun j hj => ?_⟩
    have hj0 : j = 0 := by omega
    rw [hj0]
    simp [initTable]
  obtain ⟨pid, s₂, hreg, hslot⟩ := registerProcess_of_free
    (s := { s with processes := initTable s as }) (.inr hparent) hf as' name p
  have hall := fills_registerAll s₂ rest 1
  have hkept : (registerAll s₂ rest).2.processes.slots 1 =
      some (ProcessInfo.new .null name p as' initPid) := by
    rcases hall with ⟨hs, -⟩ | ⟨hfree, -⟩
    · exact hs.trans hslot
    · rw [hslot] at hfree
      cases hfree
  refine ⟨ProcessInfo.new .null name p as' initPid, ?_, rfl⟩
  rw [← hkept]
  have hguard : ¬ s.initialised = true := by rw [hinit]; exact Bool.false_ne_true
  simp only [step, ProcServer.bootstrap, if_neg hguard, hins, registerAll, hreg]
  rcases registerAll s₂ rest with ⟨e | u, s₃⟩ <;> rfl

theorem spawn_null {parent : ProcessId} {pinfo : ProcessInfo} {i : ℕ}
    (hget : s.processes.get parent = some pinfo) (halive : pinfo.state.isAlive = true)
    (hf : Slots.firstFree maxProcesses s.processes.slots = some i) (name : List UInt8) :
    ∃ info, (s.step (.spawn parent name)).processes.slots i = some info ∧ info.pid = .null := by
  simp only [step, spawn, hget, halive, Bool.not_true, Bool.false_eq_true, if_false,
    ProcessTable.insert_of_free hf]
  split
  · exact ⟨_, Function.update_self .., rfl⟩
  · next info hchild =>
    rw [ProcessTable.modify_of_get hchild]
    obtain ⟨-, -, -, hs⟩ := ProcessTable.get_eq_some.mp hchild
    simp only [Function.update_self, Option.some.injEq] at hs
    exact ⟨_, Function.update_self .., by rw [← hs]; rfl⟩

theorem exists_firstFree (h : Slots.firstFree maxProcesses s.processes.slots ≠ none) :
    ∃ i, i < maxProcesses ∧ Slots.firstFree maxProcesses s.processes.slots = some i := by
  cases hf : Slots.firstFree maxProcesses s.processes.slots with
  | none => exact absurd hf h
  | some i => exact ⟨i, (Slots.firstFree_eq_some.mp hf).2.1, rfl⟩

theorem Labelled.not_coherent (h : s.Labelled) {c : ProcCall} (hc : ¬ s.OnlyInit c) :
    ¬ (s.step c).Coherent := by
  cases c with
  | bootstrap as servers =>
    simp only [OnlyInit, not_or, Bool.not_eq_true] at hc
    obtain ⟨hinit, hne⟩ := hc
    obtain ⟨a, rest, rfl⟩ := List.exists_cons_of_ne_nil hne
    obtain ⟨info, hs, hpid⟩ := bootstrap_null h hinit as a rest
    exact not_coherent_of_null (by decide) hs hpid
  | register parent as name p =>
    simp only [OnlyInit, not_or, not_and] at hc
    obtain ⟨i, hlt, hf⟩ := exists_firstFree hc.1
    have hparent : parent.isNull = true ∨ s.processes.get parent ≠ none := by
      by_cases hnull : parent.isNull = true
      · exact .inl hnull
      · exact .inr (hc.2 (by simpa using hnull))
    obtain ⟨pid, s', hreg, hs⟩ := registerProcess_of_free hparent hf as name p
    have hstep : s.step (.register parent as name p) = s' := by
      simp only [ProcServer.step, hreg]
    rw [hstep]
    exact not_coherent_of_null hlt hs rfl
  | spawn parent name =>
    simp only [OnlyInit, not_or, not_forall, Bool.not_eq_false] at hc
    obtain ⟨i, hlt, hf⟩ := exists_firstFree hc.1
    obtain ⟨pinfo, hget, halive⟩ := hc.2
    obtain ⟨info, hs, hpid⟩ := spawn_null hget halive hf name
    exact not_coherent_of_null hlt hs hpid
  | exit pid code => exact absurd trivial hc
  | kill pid => exact absurd trivial hc
  | signal target sig => exact absurd trivial hc
  | reap parent child => exact absurd trivial hc

/-- **The ids in the table are right exactly as long as init is the only process put into it**:
`spawn`, `register_process` and the servers given to `bootstrap` leave the null id in the
record. -/
theorem coherent_iff (tasks : Sche.ThreadTable) (calls : List ProcCall) :
    (∀ pre, pre <+: calls → (Run.exec step (new tasks) pre).Coherent) ↔
      Run.Along step OnlyInit (new tasks) calls := by
  have hstep : ∀ s c, Labelled s → OnlyInit s c → Labelled (step s c) :=
    fun s c hs hc => hs.step hc
  have hbreak : ∀ s c, Labelled s → ¬ OnlyInit s c → ¬ Coherent (step s c) :=
    fun s c hs hc => hs.not_coherent hc
  exact Run.forall_prefix_iff_along (fun _ hs => hs.coherent) hstep hbreak (labelled_new tasks)
    calls

/-- After init has spawned a process, the id that `children_of` gives for it is null. -/
theorem spawned_not_coherent :
    ¬ ∀ pre : List ProcCall, pre <+: [.bootstrap 1 [], .spawn initPid [0x61]] →
      (Run.exec step (new Sche.ThreadTable.new) pre).Coherent := by
  intro h
  obtain ⟨info, hget, -⟩ := (h _ (List.prefix_refl _)).children initPid .null (by decide +kernel)
  cases hget

end ProcServer

end QuackOS.Proc
