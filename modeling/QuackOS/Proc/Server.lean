import QuackOS.Proc.Table

/-!
# The process server

`usr/proc/server.rs`: bootstrap, spawn, exit, signals and reaping.  A function returns its result
and the server after it, since some that fail have already changed the table.

* `ProcServer.step` — one call;
* `terminated` — the process that a call ends, and its exit code;
* `slotChange_step` — what a call can do to a slot of the table.  Every later result about runs
  uses this lemma only.
-/

namespace QuackOS.Proc

/-- `ProcServer`.  The task manager has no state of its own; `tasks` is the kernel's thread table
that it works on. -/
structure ProcServer where
  processes : ProcessTable
  tasks : Sche.ThreadTable
  defaultPriority : ProcessPriority
  initialised : Bool

namespace ProcServer

/-- `ProcServer::new`, over the kernel's threads. -/
def new (tasks : Sche.ThreadTable) : ProcServer :=
  { processes := ProcessTable.new
    tasks
    defaultPriority := ProcessPriority.default
    initialised := false }

/-- `register_process`. -/
def registerProcess (s : ProcServer) (parent : ProcessId) (addrSpaceId : ℕ) (name : List UInt8)
    (priority : ProcessPriority) : Except ProcError ProcessId × ProcServer :=
  if !parent.isNull && (s.processes.get parent).isNone then (.error .InvalidProcess, s)
  else
    match s.processes.insert (ProcessInfo.new .null name priority addrSpaceId parent) with
    | .error e => (.error e, s)
    | .ok (pid, processes) => (.ok pid, { s with processes })

/-- The id that `bootstrap` counts on for init. -/
def initPid : ProcessId := ⟨0, 1⟩

/-- The loop of `bootstrap` over the servers started before. -/
def registerAll (s : ProcServer) :
    List (ℕ × List UInt8 × ProcessPriority) → Except ProcError Unit × ProcServer
  | [] => (.ok (), s)
  | (addrSpaceId, name, priority) :: rest =>
      match s.registerProcess initPid addrSpaceId name priority with
      | (.error e, s) => (.error e, s)
      | (.ok _, s) => registerAll s rest

/-- The bytes of `"init"`. -/
def initName : List UInt8 := [0x69, 0x6e, 0x69, 0x74]

/-- `bootstrap`. -/
def bootstrap (s : ProcServer) (initAddrSpaceId : ℕ)
    (systemServers : List (ℕ × List UInt8 × ProcessPriority)) :
    Except ProcError Unit × ProcServer :=
  if s.initialised then (.error .InvalidState, s)
  else
    match s.processes.insert
        (ProcessInfo.new initPid initName ProcessPriority.system initAddrSpaceId .null) with
    | .error e => (.error e, s)
    | .ok (_, processes) =>
        match registerAll { s with processes } systemServers with
        | (.error e, s) => (.error e, s)
        | (.ok (), s) => (.ok (), { s with initialised := true })

/-- `spawn`; the segments of the new process are not used yet. -/
def spawn (s : ProcServer) (parent : ProcessId) (name : List UInt8) :
    Except ProcError ProcessId × ProcServer :=
  match s.processes.get parent with
  | none => (.error .InvalidProcess, s)
  | some parentInfo =>
      if !parentInfo.state.isAlive then (.error .InvalidState, s)
      else
        match s.processes.insert (ProcessInfo.new .null name s.defaultPriority 0 parent) with
        | .error e => (.error e, s)
        | .ok (childPid, processes) =>
            match processes.get childPid with
            | none => (.error .InvalidProcess, { s with processes })
            | some _ =>
                (.ok childPid,
                  { s with processes :=
                      processes.modify childPid fun child => { child with state := .running } })

/-- `destroy_task` for each task that exists. -/
def destroyTasks (tasks : Sche.ThreadTable) (tids : List Sche.ThreadId) : Sche.ThreadTable :=
  tids.foldl (fun t tid => if (t.lookup tid).isSome then t.destroyThread tid else t) tasks

/-- `exit`: a process whose parent is alive stays as a zombie, any other is removed. -/
def exit (s : ProcServer) (pid : ProcessId) (exitCode : ℤ) : Except ProcError Unit × ProcServer :=
  match s.processes.get pid with
  | none => (.error .InvalidProcess, s)
  | some info =>
      if !info.state.isAlive then (.error .InvalidState, s)
      else
        match s.processes.setState pid .dying with
        | .error e => (.error e, s)
        | .ok processes =>
            let tasks := destroyTasks s.tasks info.threadIds
            let isZombie := !info.parent.isNull &&
              (processes.get info.parent).any fun p => p.state.isAlive
            if isZombie then
              (.ok (), { s with
                processes := processes.modify pid fun info => info.toZombie exitCode
                tasks })
            else (.ok (), { s with processes := processes.remove pid, tasks })

/-- `kill`. -/
def kill (s : ProcServer) (pid : ProcessId) : Except ProcError Unit × ProcServer := s.exit pid (-9)

/-- `reap`. -/
def reap (s : ProcServer) (parent child : ProcessId) : Except ProcError ℤ × ProcServer :=
  match s.processes.get child with
  | none => (.error .InvalidProcess, s)
  | some childInfo =>
      if childInfo.state ≠ .zombie then (.error .InvalidState, s)
      else if childInfo.parent ≠ parent then (.error .PermissionDenied, s)
      else (.ok (childInfo.exitCode.getD 0), { s with processes := s.processes.remove child })

/-- `set_state` as the last thing a call does. -/
def setState (s : ProcServer) (pid : ProcessId) (st : ProcessState) :
    Except ProcError Unit × ProcServer :=
  match s.processes.setState pid st with
  | .error e => (.error e, s)
  | .ok processes => (.ok (), { s with processes })

/-- `send_signal`: a signal to a process that cannot receive it is dropped. -/
def sendSignal (s : ProcServer) (target : ProcessId) (signal : Signal) :
    Except ProcError Unit × ProcServer :=
  match s.processes.get target with
  | none => (.error .InvalidProcess, s)
  | some info =>
      if !info.state.canReceiveSignal then (.ok (), s)
      else
        match signal.defaultAction with
        | .terminate => s.exit target (-signal.number)
        | .stop => s.setState target .stopped
        | .cont => if info.state = .stopped then s.setState target .running else (.ok (), s)
        | .ignore => (.ok (), s)

end ProcServer

/-! ## Calls -/

/-- A call on the server. -/
inductive ProcCall
  | bootstrap (initAddrSpaceId : ℕ) (systemServers : List (ℕ × List UInt8 × ProcessPriority))
  | register (parent : ProcessId) (addrSpaceId : ℕ) (name : List UInt8)
      (priority : ProcessPriority)
  | spawn (parent : ProcessId) (name : List UInt8)
  | exit (pid : ProcessId) (exitCode : ℤ)
  | kill (pid : ProcessId)
  | signal (target : ProcessId) (signal : Signal)
  | reap (parent child : ProcessId)
  deriving DecidableEq

/-- Calls that put processes into the table. -/
def ProcCall.inserts : ProcCall → Bool
  | .bootstrap .. | .register .. | .spawn .. => true
  | .exit .. | .kill .. | .signal .. | .reap .. => false

namespace ProcServer

/-- One call. -/
def step (s : ProcServer) : ProcCall → ProcServer
  | .bootstrap initAddrSpaceId systemServers => (s.bootstrap initAddrSpaceId systemServers).2
  | .register parent addrSpaceId name priority =>
      (s.registerProcess parent addrSpaceId name priority).2
  | .spawn parent name => (s.spawn parent name).2
  | .exit pid exitCode => (s.exit pid exitCode).2
  | .kill pid => (s.kill pid).2
  | .signal target signal => (s.sendSignal target signal).2
  | .reap parent child => (s.reap parent child).2

/-- The process that a call ends, with its exit code: an `exit` or a `kill` that succeeds, or a
terminating signal that succeeds on a process that can receive signals. -/
def terminated (s : ProcServer) : ProcCall → Option (ProcessId × ℤ)
  | .exit pid exitCode => if (s.exit pid exitCode).1.isOk then some (pid, exitCode) else none
  | .kill pid => if (s.kill pid).1.isOk then some (pid, -9) else none
  | .signal target signal =>
      if signal.defaultAction = .terminate ∧ (s.sendSignal target signal).1.isOk ∧
          (s.processes.get target).any (fun info => info.state.canReceiveSignal) then
        some (target, -signal.number)
      else none
  | _ => none

/-- What a call does to slot `i`. -/
inductive SlotChange (s : ProcServer) (c : ProcCall) (s' : ProcServer) (i : ℕ) : Prop
  | same (slot : s'.processes.slots i = s.processes.slots i)
      (gen : s'.processes.generations i = s.processes.generations i)
  | filled (info : ProcessInfo) (free : s.processes.slots i = none)
      (slot : s'.processes.slots i = some info) (alive : info.state.isAlive = true)
      (call : c.inserts = true)
      (gen : s'.processes.generations i = s.processes.nextGeneration i)
  | paused (info : ProcessInfo) (st : ProcessState) (old : s.processes.slots i = some info)
      (alive : info.state.isAlive = true) (alive' : st.isAlive = true)
      (slot : s'.processes.slots i = some { info with state := st })
      (gen : s'.processes.generations i = s.processes.generations i)
  | died (info : ProcessInfo) (code : ℤ) (old : s.processes.slots i = some info)
      (alive : info.state.isAlive = true)
      (ended : s.terminated c = some (⟨i, s.processes.generations i⟩, code))
      (slot : s'.processes.slots i = none ∨
        s'.processes.slots i = some (info.toZombie code) ∧
          ∃ parent, s'.processes.get info.parent = some parent ∧ parent.state.isAlive = true)
      (gen : s'.processes.generations i = s.processes.generations i)
  | reaped (info : ProcessInfo) (old : s.processes.slots i = some info)
      (zombie : info.state = .zombie)
      (call : c = .reap info.parent ⟨i, s.processes.generations i⟩)
      (slot : s'.processes.slots i = none)
      (gen : s'.processes.generations i = s.processes.generations i)

end ProcServer

/-! ## Calls that put processes into the table -/

/-- `t'` is `t` with new processes in some of its free slots. -/
def Fills (t t' : ProcessTable) : Prop := ∀ i,
  (t'.slots i = t.slots i ∧ t'.generations i = t.generations i) ∨
    (t.slots i = none ∧ t'.generations i = t.nextGeneration i ∧
      ∃ info, t'.slots i = some info ∧ info.state.isAlive = true)

theorem Fills.refl (t : ProcessTable) : Fills t t := fun _ => .inl ⟨rfl, rfl⟩

theorem Fills.trans {t t' t'' : ProcessTable} (h : Fills t t') (h' : Fills t' t'') :
    Fills t t'' := by
  intro i
  rcases h i with ⟨hs, hg⟩ | ⟨hfree, hg, info, hs, halive⟩
  · rcases h' i with ⟨hs', hg'⟩ | ⟨hfree', hg', info', hs', halive'⟩
    · exact .inl ⟨hs'.trans hs, hg'.trans hg⟩
    · refine .inr ⟨hs ▸ hfree', hg'.trans ?_, info', hs', halive'⟩
      rw [ProcessTable.nextGeneration, ProcessTable.nextGeneration, hg]
  · rcases h' i with ⟨hs', hg'⟩ | ⟨hfree', -⟩
    · exact .inr ⟨hfree, hg'.trans hg, info, hs'.trans hs, halive⟩
    · rw [hs] at hfree'
      cases hfree'

/-- A table with one free slot filled. -/
theorem fills_update {t : ProcessTable} {i n : ℕ} (hfree : t.slots i = none) {info : ProcessInfo}
    (halive : info.state.isAlive = true) :
    Fills t
      { slots := Function.update t.slots i (some info)
        len := n
        generations := Function.update t.generations i (t.nextGeneration i) } := by
  intro j
  by_cases hj : j = i
  · subst hj
    exact .inr ⟨hfree, Function.update_self .., info, Function.update_self .., halive⟩
  · exact .inl ⟨Function.update_of_ne hj .., Function.update_of_ne hj ..⟩

/-- What `insert` does. -/
theorem fills_insert {t t' : ProcessTable} {info : ProcessInfo} {pid : ProcessId}
    (halive : info.state.isAlive = true) (h : t.insert info = .ok (pid, t')) : Fills t t' := by
  cases hf : Slots.firstFree maxProcesses t.slots with
  | none =>
    rw [ProcessTable.insert_of_full hf] at h
    cases h
  | some i =>
    rw [ProcessTable.insert_of_free hf] at h
    cases h
    exact fills_update (Slots.firstFree_eq_some.mp hf).1 halive

namespace ProcServer

theorem fills_registerProcess (s : ProcServer) (parent : ProcessId) (as : ℕ) (name : List UInt8)
    (p : ProcessPriority) :
    Fills s.processes (s.registerProcess parent as name p).2.processes := by
  unfold registerProcess
  split
  · exact Fills.refl _
  · cases hins : s.processes.insert (ProcessInfo.new .null name p as parent) with
    | error e => exact Fills.refl _
    | ok r => exact fills_insert rfl hins

theorem fills_registerAll (s : ProcServer)
    (servers : List (ℕ × List UInt8 × ProcessPriority)) :
    Fills s.processes (s.registerAll servers).2.processes := by
  induction servers generalizing s with
  | nil => exact Fills.refl _
  | cons a rest ih =>
    obtain ⟨as, name, p⟩ := a
    have hone := s.fills_registerProcess initPid as name p
    unfold registerAll
    rcases hr : s.registerProcess initPid as name p with ⟨e | pid, s'⟩
    · rw [hr] at hone
      exact hone
    · rw [hr] at hone
      exact hone.trans (ih s')

theorem fills_bootstrap (s : ProcServer) (as : ℕ)
    (servers : List (ℕ × List UInt8 × ProcessPriority)) :
    Fills s.processes (s.bootstrap as servers).2.processes := by
  unfold bootstrap
  split
  · exact Fills.refl _
  · cases hins : s.processes.insert
        (ProcessInfo.new initPid initName ProcessPriority.system as .null) with
    | error e => exact Fills.refl _
    | ok r =>
      obtain ⟨pid, t⟩ := r
      have hall := fills_registerAll { s with processes := t } servers
      refine (fills_insert rfl hins).trans ?_
      dsimp only
      rcases hr : registerAll { s with processes := t } servers with ⟨e | u, s'⟩
      · rw [hr] at hall
        exact hall
      · rw [hr] at hall
        exact hall

theorem fills_spawn (s : ProcServer) (parent : ProcessId) (name : List UInt8) :
    Fills s.processes (s.spawn parent name).2.processes := by
  unfold spawn
  cases s.processes.get parent with
  | none => exact Fills.refl _
  | some parentInfo =>
    dsimp only
    split
    · exact Fills.refl _
    · cases hf : Slots.firstFree maxProcesses s.processes.slots with
      | none =>
        rw [ProcessTable.insert_of_full hf]
        exact Fills.refl _
      | some i =>
        have hfree := (Slots.firstFree_eq_some.mp hf).1
        rw [ProcessTable.insert_of_free hf]
        dsimp only
        -- the new id resolves unless the generation of slot 0 has come round to 0
        split
        · exact fills_update hfree rfl
        · next info hget =>
          rw [ProcessTable.modify_of_get hget]
          dsimp only
          rw [Function.update_idem]
          exact fills_update hfree rfl

/-! ## Calls that end a process -/

/-- The table while `exit` runs: the process is dying. -/
def dyingTable (t : ProcessTable) (pid : ProcessId) (info : ProcessInfo) : ProcessTable :=
  { t with slots := Function.update t.slots pid.index (some { info with state := .dying }) }

/-- Does `exit` leave a zombie? -/
def leavesZombie (t : ProcessTable) (pid : ProcessId) (info : ProcessInfo) : Bool :=
  !info.parent.isNull && ((dyingTable t pid info).get info.parent).any fun p => p.state.isAlive

variable {s : ProcServer} {pid : ProcessId} {info : ProcessInfo}

theorem exit_of_alive (hget : s.processes.get pid = some info) (halive : info.state.isAlive = true)
    (code : ℤ) :
    s.exit pid code = (.ok (), { s with
      processes :=
        if leavesZombie s.processes pid info then
          { s.processes with
            slots := Function.update s.processes.slots pid.index (some (info.toZombie code)) }
        else { s.processes with
          slots := Function.update s.processes.slots pid.index none
          len := s.processes.len - 1 }
      tasks := destroyTasks s.tasks info.threadIds }) := by
  have hdying := ProcessTable.get_update hget { info with state := .dying }
  unfold exit
  simp only [hget, halive, Bool.not_true, Bool.false_eq_true, if_false,
    ProcessTable.setState_of_get hget]
  rw [ProcessTable.modify_of_get hdying, ProcessTable.remove_of_get hdying]
  simp only [Function.update_idem]
  change (if leavesZombie s.processes pid info = true then _ else _) = _
  by_cases hz : leavesZombie s.processes pid info = true
  · rw [if_pos hz, if_pos hz]
    rfl
  · rw [if_neg hz, if_neg hz]

theorem exit_of_not_alive
    (h : ∀ info, s.processes.get pid = some info → info.state.isAlive = false) (code : ℤ) :
    (s.exit pid code).1.isOk = false ∧ (s.exit pid code).2 = s := by
  unfold exit
  cases hget : s.processes.get pid with
  | none => exact ⟨rfl, rfl⟩
  | some info =>
    dsimp only
    rw [h info hget, Bool.not_false, if_pos rfl]
    exact ⟨rfl, rfl⟩

/-- The parent for which `exit` leaves a zombie is another process. -/
theorem get_parent_of_leavesZombie
    (hz : leavesZombie s.processes pid info = true) :
    ∃ parent, s.processes.get info.parent = some parent ∧ parent.state.isAlive = true ∧
      info.parent.index ≠ pid.index := by
  unfold leavesZombie at hz
  rw [Bool.and_eq_true, Option.any_eq_true] at hz
  obtain ⟨-, parent, hparent, halive⟩ := hz
  obtain ⟨hn, hi, hg, hs⟩ := ProcessTable.get_eq_some.mp hparent
  by_cases hne : info.parent.index = pid.index
  · -- the slot of the process itself: it is dying
    simp only [hne, dyingTable, Function.update_self, Option.some.injEq] at hs
    rw [← hs] at halive
    cases halive
  · simp only [dyingTable, Function.update_of_ne hne] at hs
    exact ⟨parent, ProcessTable.get_eq_some.mpr ⟨hn, hi, hg, hs⟩, halive, hne⟩

theorem slotChange_exit (code : ℤ) {c : ProcCall}
    (hc : (s.exit pid code).1.isOk = true → s.terminated c = some (pid, code)) (i : ℕ) :
    SlotChange s c (s.exit pid code).2 i := by
  by_cases hlive : ∃ info, s.processes.get pid = some info ∧ info.state.isAlive = true
  · obtain ⟨info, hget, halive⟩ := hlive
    obtain ⟨hn, hlt, hg, hs⟩ := ProcessTable.get_eq_some.mp hget
    have hexit := exit_of_alive hget halive code
    have hended := hc (by rw [hexit]; rfl)
    rw [hexit]
    by_cases hi : i = pid.index
    · subst hi
      have hpid : (⟨pid.index, s.processes.generations pid.index⟩ : ProcessId) = pid :=
        ProcessId.ext rfl hg.symm
      refine .died info code hs halive (by rw [hpid]; exact hended) ?_ ?_
      · dsimp only
        split
        · next hz =>
          obtain ⟨parent, hparent, hpalive, hne⟩ := get_parent_of_leavesZombie hz
          obtain ⟨pn, plt, pg, ps⟩ := ProcessTable.get_eq_some.mp hparent
          refine .inr ⟨Function.update_self .., parent, ?_, hpalive⟩
          exact ProcessTable.get_eq_some.mpr ⟨pn, plt, pg, (Function.update_of_ne hne ..).trans ps⟩
        · exact .inl (Function.update_self ..)
      · dsimp only
        split <;> rfl
    · refine .same ?_ ?_
      · dsimp only
        split <;> exact Function.update_of_ne hi ..
      · dsimp only
        split <;> rfl
  · have hnot : ∀ info, s.processes.get pid = some info → info.state.isAlive = false := by
      intro info hget
      by_contra halive
      exact hlive ⟨info, hget, by simpa using halive⟩
    rw [(exit_of_not_alive hnot code).2]
    exact .same rfl rfl

theorem slotChange_of_fills {c : ProcCall} (hc : c.inserts = true) {s' : ProcServer}
    (h : Fills s.processes s'.processes) (i : ℕ) : SlotChange s c s' i := by
  rcases h i with ⟨hs, hg⟩ | ⟨hfree, hg, info, hs, halive⟩
  · exact .same hs hg
  · exact .filled info hfree hs halive hc hg

theorem slotChange_setState {c : ProcCall} (hget : s.processes.get pid = some info)
    (halive : info.state.isAlive = true) {st : ProcessState} (hst : st.isAlive = true) (i : ℕ) :
    SlotChange s c (s.setState pid st).2 i := by
  obtain ⟨-, -, -, hs⟩ := ProcessTable.get_eq_some.mp hget
  rw [setState, ProcessTable.setState_of_get hget]
  by_cases hi : i = pid.index
  · subst hi
    exact .paused info st hs halive hst (Function.update_self ..) rfl
  · exact .same (Function.update_of_ne hi ..) rfl

theorem slotChange_reap (parent child : ProcessId) (i : ℕ) :
    SlotChange s (.reap parent child) (s.reap parent child).2 i := by
  unfold reap
  cases hget : s.processes.get child with
  | none => exact .same rfl rfl
  | some childInfo =>
    dsimp only
    by_cases hz : childInfo.state ≠ .zombie
    · rw [if_pos hz]
      exact .same rfl rfl
    · rw [if_neg hz]
      by_cases hp : childInfo.parent ≠ parent
      · rw [if_pos hp]
        exact .same rfl rfl
      · rw [if_neg hp, ProcessTable.remove_of_get hget]
        obtain ⟨-, -, hg, hs⟩ := ProcessTable.get_eq_some.mp hget
        by_cases hi : i = child.index
        · subst hi
          refine .reaped childInfo hs (not_not.mp hz) ?_ (Function.update_self ..) rfl
          rw [not_not.mp hp, ← hg]
        · exact .same (Function.update_of_ne hi ..) rfl

/-- **What a call can do to a slot**: nothing; put a new process into it; change the state of a
process that stays alive; end a process; or take out a zombie for its parent. -/
theorem slotChange_step (s : ProcServer) (c : ProcCall) (i : ℕ) : SlotChange s c (s.step c) i := by
  cases c with
  | bootstrap as servers => exact slotChange_of_fills rfl (s.fills_bootstrap as servers) i
  | register parent as name p => exact slotChange_of_fills rfl (s.fills_registerProcess parent as name p) i
  | spawn parent name => exact slotChange_of_fills rfl (s.fills_spawn parent name) i
  | exit pid code => exact slotChange_exit code (fun hok => by simp only [terminated, hok, if_true]) i
  | kill pid =>
    refine slotChange_exit (-9) (fun hok => ?_) i
    simp only [terminated, kill, hok, if_true]
  | reap parent child => exact slotChange_reap parent child i
  | signal target sig =>
    have hdef : s.step (.signal target sig) = (s.sendSignal target sig).2 := rfl
    rw [hdef]
    unfold sendSignal
    cases hget : s.processes.get target with
    | none => exact .same rfl rfl
    | some info =>
      dsimp only
      by_cases hrecv : info.state.canReceiveSignal = true
      · have halive := ProcessState.isAlive_of_canReceiveSignal hrecv
        simp only [hrecv, Bool.not_true, Bool.false_eq_true, if_false]
        cases hact : sig.defaultAction with
        | terminate =>
          refine slotChange_exit _ (fun hok => ?_) i
          refine if_pos ⟨hact, ?_, by rw [hget]; exact hrecv⟩
          simpa only [sendSignal, hget, hrecv, hact, Bool.not_true, Bool.false_eq_true,
            if_false] using hok
        | stop => exact slotChange_setState hget halive rfl i
        | cont =>
          dsimp only
          split
          · exact slotChange_setState hget halive rfl i
          · exact .same rfl rfl
        | ignore => exact .same rfl rfl
      · simp only [Bool.not_eq_true] at hrecv
        simp only [hrecv, Bool.not_false, if_true]
        exact .same rfl rfl

end ProcServer

end QuackOS.Proc
