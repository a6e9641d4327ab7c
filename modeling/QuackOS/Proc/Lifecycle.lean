import QuackOS.Lib.Run
import QuackOS.Proc.Server

/-!
# The end of a process

What runs of the process server keep of a process that has ended.

* `death_final` — a process that has ended is never alive again, keeps its exit code, and is
  reaped at most once, by its parent, with that code.  A signal that the server drops ends
  nothing: `dropped_signal`;
* `reapable_iff` — every zombie has a parent that can reap it, exactly as long as no process ends
  before its zombie children are reaped.
-/

namespace QuackOS.Proc

namespace ProcServer

/-! ## Ends -/

/-- A call that ends a process is an `exit` of a process alive. -/
theorem terminated_eq_some {s : ProcServer} {c : ProcCall} {p : ProcessId} {code : ℤ}
    (h : s.terminated c = some (p, code)) :
    (∃ info, s.processes.get p = some info ∧ info.state.isAlive = true) ∧
      s.step c = (s.exit p code).2 := by
  have halive : (s.exit p code).1.isOk = true →
      ∃ info, s.processes.get p = some info ∧ info.state.isAlive = true := by
    intro hok
    by_contra hno
    have hnot : ∀ info, s.processes.get p = some info → info.state.isAlive = false := by
      intro info hget
      by_contra ha
      exact hno ⟨info, hget, by simpa using ha⟩
    rw [(exit_of_not_alive hnot code).1] at hok
    cases hok
  cases c with
  | exit pid exitCode =>
    simp only [terminated, Option.ite_none_right_eq_some, Option.some.injEq, Prod.mk.injEq] at h
    obtain ⟨hok, rfl, rfl⟩ := h
    exact ⟨halive hok, rfl⟩
  | kill pid =>
    simp only [terminated, Option.ite_none_right_eq_some, Option.some.injEq, Prod.mk.injEq] at h
    obtain ⟨hok, rfl, rfl⟩ := h
    exact ⟨halive hok, rfl⟩
  | signal target sig =>
    simp only [terminated, Option.ite_none_right_eq_some, Option.some.injEq, Prod.mk.injEq] at h
    obtain ⟨⟨hact, -, hrecv⟩, rfl, rfl⟩ := h
    rw [Option.any_eq_true] at hrecv
    obtain ⟨info, hget, hrecv⟩ := hrecv
    refine ⟨⟨info, hget, ProcessState.isAlive_of_canReceiveSignal hrecv⟩, ?_⟩
    simp only [step, sendSignal, hget, hrecv, hact, Bool.not_true, Bool.false_eq_true, if_false]
  | bootstrap as servers => cases h
  | register parent as name priority => cases h
  | spawn parent name => cases h
  | reap parent child => cases h

/-- A reap that succeeds. -/
theorem reap_eq_ok {s : ProcServer} {parent child : ProcessId} {code : ℤ}
    (h : (s.reap parent child).1 = .ok code) :
    ∃ info, s.processes.get child = some info ∧ info.state = .zombie ∧ info.parent = parent ∧
      code = info.exitCode.getD 0 ∧
      (s.reap parent child).2 = { s with processes := s.processes.remove child } := by
  unfold reap at h ⊢
  cases hget : s.processes.get child with
  | none =>
    rw [hget] at h
    cases h
  | some info =>
    simp only [hget] at h ⊢
    by_cases hz : info.state ≠ .zombie
    · rw [if_pos hz] at h
      cases h
    · by_cases hp : info.parent ≠ parent
      · rw [if_neg hz, if_pos hp] at h
        cases h
      · rw [if_neg hz, if_neg hp] at h ⊢
        exact ⟨info, rfl, not_not.mp hz, not_not.mp hp, (Except.ok.inj h).symm, rfl⟩

/-! ## Generations along a run -/

/-- A call gives out slot `i`: its generation changes. -/
def Allocates (i : ℕ) (s : ProcServer) (c : ProcCall) : Prop :=
  (s.step c).processes.generations i ≠ s.processes.generations i

instance (i : ℕ) (s : ProcServer) (c : ProcCall) : Decidable (Allocates i s c) :=
  inferInstanceAs (Decidable (_ ≠ _))

/-- The generation of a slot that the call gives out does not wrap. -/
def NoWrap (s : ProcServer) (c : ProcCall) : Prop :=
  ∀ i, Allocates i s c → s.processes.generations i < 65534

theorem generations_step (s : ProcServer) (c : ProcCall) (i : ℕ) :
    (s.step c).processes.generations i ≤
      s.processes.generations i + if Allocates i s c then 1 else 0 := by
  by_cases ha : Allocates i s c
  · rw [if_pos ha]
    cases slotChange_step s c i with
    | same slot gen => omega
    | filled info free slot alive call gen =>
      rw [gen, ProcessTable.nextGeneration]
      have := Nat.mod_le (s.processes.generations i + 1) (2 ^ 16)
      split <;> omega
    | paused info st old alive alive' slot gen => omega
    | died info code old alive ended slot gen => omega
    | reaped info old zombie call slot gen => omega
  · have hsame : (s.step c).processes.generations i = s.processes.generations i :=
      not_not.mp ha
    rw [if_neg ha, hsame, Nat.add_zero]

/-- Along a run with fewer than 65535 allocations of any slot no generation wraps. -/
theorem along_noWrap {tasks : Sche.ThreadTable} {calls : List ProcCall}
    (h : ∀ i, Run.count step (Allocates i) (new tasks) calls < 65535) :
    Run.Along step NoWrap (new tasks) calls := by
  refine Run.along_forall fun i => ?_
  refine Run.along_of_count (G := fun s => s.processes.generations i)
    (fun s c => generations_step s c i) ?_
  have hzero : (new tasks).processes.generations i = 0 := rfl
  have hi := h i
  omega

/-! ## Ids that are spent -/

/-- The process that `p` named is out of the table, and its generation is past. -/
def Spent (p : ProcessId) (s : ProcServer) : Prop :=
  p.generation < s.processes.generations p.index ∨
    (p.generation = s.processes.generations p.index ∧ s.processes.slots p.index = none)

/-- The process that `p` names is a zombie. -/
def Waits (p parent : ProcessId) (code : ℤ) (s : ProcServer) : Prop :=
  p.generation = s.processes.generations p.index ∧ ∃ info, s.processes.slots p.index = some info ∧
    info.state = .zombie ∧ info.exitCode = some code ∧ info.parent = parent

variable {s : ProcServer} {c : ProcCall} {p parent : ProcessId} {code : ℤ}

theorem Spent.get (h : Spent p s) : s.processes.get p = none := by
  cases hget : s.processes.get p with
  | none => rfl
  | some info =>
    obtain ⟨-, -, hg, hs⟩ := ProcessTable.get_eq_some.mp hget
    rcases h with hlt | ⟨-, hfree⟩
    · omega
    · rw [hfree] at hs
      cases hs

theorem Spent.step (h : Spent p s) (hw : NoWrap s c) : Spent p (s.step c) := by
  cases slotChange_step s c p.index with
  | same slot gen =>
    unfold Spent
    rw [slot, gen]
    exact h
  | filled info free slot alive call gen =>
    have hne : Allocates p.index s c := by
      rw [Allocates, gen]
      exact s.processes.nextGeneration_ne p.index
    have hlt := hw p.index hne
    refine .inl ?_
    rw [gen, ProcessTable.nextGeneration]
    rcases h with hold | ⟨hold, -⟩
    · split <;> omega
    · split <;> omega
  | paused info st old alive alive' slot gen =>
    refine .inl ?_
    rcases h with hold | ⟨-, hfree⟩
    · rwa [gen]
    · rw [hfree] at old
      cases old
  | died info code old alive ended slot gen =>
    refine .inl ?_
    rcases h with hold | ⟨-, hfree⟩
    · rwa [gen]
    · rw [hfree] at old
      cases old
  | reaped info old zombie call slot gen =>
    refine .inl ?_
    rcases h with hold | ⟨-, hfree⟩
    · rwa [gen]
    · rw [hfree] at old
      cases old

theorem Waits.get (h : Waits p parent code s) {info : ProcessInfo}
    (hget : s.processes.get p = some info) :
    info.state = .zombie ∧ info.exitCode = some code ∧ info.parent = parent := by
  obtain ⟨-, -, -, hs⟩ := ProcessTable.get_eq_some.mp hget
  obtain ⟨-, info', hs', hz, hcode, hparent⟩ := h
  rw [hs, Option.some.injEq] at hs'
  subst hs'
  exact ⟨hz, hcode, hparent⟩

/-- A zombie stays as it is until its parent reaps it. -/
theorem zombie_step {i : ℕ} {info : ProcessInfo} (hs : s.processes.slots i = some info)
    (hz : info.state = .zombie) :
    (s.step c).processes.generations i = s.processes.generations i ∧
      ((s.step c).processes.slots i = some info ∨
        c = .reap info.parent ⟨i, s.processes.generations i⟩ ∧
          (s.step c).processes.slots i = none) := by
  have hdead : info.state.isAlive = false := by rw [hz]; rfl
  cases slotChange_step s c i with
  | same slot gen => exact ⟨gen, .inl (slot.trans hs)⟩
  | filled info' free slot alive call gen =>
    rw [hs] at free
    cases free
  | paused info' st old alive alive' slot gen =>
    rw [hs, Option.some.injEq] at old
    rw [← old, hdead] at alive
    cases alive
  | died info' code' old alive ended slot gen =>
    rw [hs, Option.some.injEq] at old
    rw [← old, hdead] at alive
    cases alive
  | reaped info' old zombie call slot gen =>
    rw [hs, Option.some.injEq] at old
    rw [← old] at call
    exact ⟨gen, .inr ⟨call, slot⟩⟩

theorem Waits.step (h : Waits p parent code s) :
    Waits p parent code (s.step c) ∨ Spent p (s.step c) := by
  obtain ⟨hg, info, hs, hz, hcode, hparent⟩ := h
  obtain ⟨hgen, hstill | ⟨-, hnone⟩⟩ := zombie_step (c := c) hs hz
  · exact .inl ⟨hg.trans hgen.symm, info, hstill, hz, hcode, hparent⟩
  · exact .inr (.inr ⟨hg.trans hgen.symm, hnone⟩)

/-- The process that a call ends is gone or a zombie after it. -/
theorem spent_or_waits (h : s.terminated c = some (p, code)) :
    ∃ info, s.processes.get p = some info ∧
      (Spent p (s.step c) ∨ Waits p info.parent code (s.step c)) := by
  obtain ⟨⟨info, hget, halive⟩, hstep⟩ := terminated_eq_some h
  obtain ⟨-, -, hg, -⟩ := ProcessTable.get_eq_some.mp hget
  refine ⟨info, hget, ?_⟩
  rw [hstep, exit_of_alive hget halive]
  by_cases hz : leavesZombie s.processes p info = true
  · refine .inr ?_
    rw [if_pos hz]
    exact ⟨hg, _, Function.update_self .., rfl, rfl, rfl⟩
  · refine .inl (.inr ?_)
    rw [if_neg hz]
    exact ⟨hg, Function.update_self ..⟩

/-! ## Death is final -/

/-- A process that has ended: gone, or a zombie with its exit code. -/
def Ended (p parent : ProcessId) (code : ℤ) (s : ProcServer) : Prop :=
  Spent p s ∨ Waits p parent code s

theorem Ended.step (h : Ended p parent code s) (hw : NoWrap s c) :
    Ended p parent code (s.step c) := by
  rcases h with hspent | hwaits
  · exact .inl (hspent.step hw)
  · exact hwaits.step.symm

theorem Ended.get (h : Ended p parent code s) {info : ProcessInfo}
    (hget : s.processes.get p = some info) :
    info.state = .zombie ∧ info.exitCode = some code ∧ info.parent = parent := by
  rcases h with hspent | hwaits
  · rw [hspent.get] at hget
    cases hget
  · exact hwaits.get hget

/-- No call ends the process again. -/
def NotEndedBy (p : ProcessId) (s : ProcServer) (c : ProcCall) : Prop :=
  ∀ code, s.terminated c ≠ some (p, code)

theorem Ended.notEndedBy (h : Ended p parent code s) : NotEndedBy p s c := by
  intro code' hc
  obtain ⟨⟨info, hget, halive⟩, -⟩ := terminated_eq_some hc
  rw [(h.get hget).1] at halive
  cases halive

/-- Who reaps the process is its parent, and gets its exit code. -/
def ReapedRightly (p parent : ProcessId) (code : ℤ) (s : ProcServer) (c : ProcCall) : Prop :=
  ∀ parent' code', c = .reap parent' p → (s.reap parent' p).1 = .ok code' →
    parent' = parent ∧ code' = code

theorem Ended.reapedRightly (h : Ended p parent code s) : ReapedRightly p parent code s c := by
  rintro parent' code' rfl hok
  obtain ⟨info, hget, -, hparent, hcode, -⟩ := reap_eq_ok hok
  obtain ⟨-, hcode', hparent'⟩ := h.get hget
  rw [hcode', Option.getD_some] at hcode
  exact ⟨hparent.symm.trans hparent', hcode⟩

/-- A call reaps the process. -/
def Reaps (p : ProcessId) (s : ProcServer) : ProcCall → Prop
  | .reap parent child => child = p ∧ (s.reap parent child).1.isOk = true
  | _ => False

instance (p : ProcessId) (s : ProcServer) : DecidablePred (Reaps p s)
  | .reap _ _ => inferInstanceAs (Decidable (_ ∧ _))
  | .bootstrap .. | .register .. | .spawn .. | .exit .. | .kill .. | .signal .. => isFalse id

theorem Reaps.spent (h : Reaps p s c) :
    (∃ info, s.processes.get p = some info) ∧ Spent p (s.step c) := by
  cases c with
  | reap parent child =>
    obtain ⟨rfl, hok⟩ := h
    cases hr : (s.reap parent child).1 with
    | error e =>
      rw [hr] at hok
      cases hok
    | ok code =>
      obtain ⟨info, hget, -, -, -, hafter⟩ := reap_eq_ok hr
      obtain ⟨-, -, hg, -⟩ := ProcessTable.get_eq_some.mp hget
      refine ⟨⟨info, hget⟩, ?_⟩
      have hstep : s.step (.reap parent child) = _ := hafter
      rw [hstep, ProcessTable.remove_of_get hget]
      exact .inr ⟨hg, Function.update_self ..⟩
  | bootstrap as servers => cases h
  | register parent as name priority => cases h
  | spawn parent name => cases h
  | exit pid exitCode => cases h
  | kill pid => cases h
  | signal target sig => cases h

theorem Spent.count_reaps {calls : List ProcCall} (h : Spent p s)
    (hw : Run.Along ProcServer.step NoWrap s calls) :
    Run.count ProcServer.step (Reaps p) s calls = 0 := by
  induction calls generalizing s with
  | nil => rfl
  | cons c calls ih =>
    have hnot : ¬ Reaps p s c := by
      intro hr
      obtain ⟨info, hget⟩ := hr.spent.1
      rw [h.get] at hget
      cases hget
    rw [Run.count, if_neg hnot, ih (h.step hw.1) hw.2]

/-- A process is reaped at most once. -/
theorem count_reaps_le {calls : List ProcCall} (hw : Run.Along step NoWrap s calls) :
    Run.count step (Reaps p) s calls ≤ 1 := by
  induction calls generalizing s with
  | nil => exact Nat.zero_le 1
  | cons c calls ih =>
    by_cases hr : Reaps p s c
    · rw [Run.count, if_pos hr, hr.spent.2.count_reaps hw.2]
    · rw [Run.count, if_neg hr, Nat.zero_add]
      exact ih hw.2

/-- **Death is final.**  In a run with fewer than 65535 allocations of any slot, a process that a
call ends is never alive again and keeps its exit code; no later call ends it once more; and it is
reaped at most once, by its parent, with that exit code. -/
theorem death_final {tasks : Sche.ThreadTable} {pre post : List ProcCall}
    (halloc : ∀ i, Run.count step (Allocates i) (new tasks) (pre ++ c :: post) < 65535)
    (hend : (Run.exec step (new tasks) pre).terminated c = some (p, code)) :
    ∃ info, (Run.exec step (new tasks) pre).processes.get p = some info ∧
      (∀ later, later <+: post → ∀ info',
        (Run.exec step (new tasks) (pre ++ c :: later)).processes.get p = some info' →
          info'.state.isAlive = false ∧ info'.exitCode = some code) ∧
      Run.Along step (NotEndedBy p) (Run.exec step (new tasks) (pre ++ [c])) post ∧
      Run.Along step (ReapedRightly p info.parent code)
        (Run.exec step (new tasks) (pre ++ [c])) post ∧
      Run.count step (Reaps p) (new tasks) (pre ++ c :: post) ≤ 1 := by
  have hw := along_noWrap halloc
  obtain ⟨-, -, hpost⟩ := (Run.along_append step NoWrap (new tasks) pre (c :: post)).mp hw
  obtain ⟨info, hget, hended⟩ := spent_or_waits hend
  have hstep : ∀ s c, Ended p info.parent code s → NoWrap s c →
      Ended p info.parent code (step s c) := fun s c hs hc => hs.step hc
  have hafter : Run.exec step (new tasks) (pre ++ [c]) =
      (Run.exec step (new tasks) pre).step c := by
    rw [Run.exec_append, Run.exec_cons, Run.exec_nil]
  refine ⟨info, hget, fun later hlater info' hget' => ?_, ?_, ?_, count_reaps_le hw⟩
  · rw [Run.exec_append, Run.exec_cons] at hget'
    have hlast := (Run.exec_invariant_prefix hstep hended hpost hlater).get hget'
    rw [hlast.1]
    exact ⟨rfl, hlast.2.1⟩
  · rw [hafter]
    exact Run.along_of_invariant hstep (fun s c hs _ => hs.notEndedBy) hended hpost
  · rw [hafter]
    exact Run.along_of_invariant hstep (fun s c hs _ => hs.reapedRightly) hended hpost

/-- A server with init and one child of it. -/
def oneChild : List ProcCall := [.bootstrap 1 [], .spawn initPid [0x61]]

/-- The child exits with code 7; a signal after that does nothing, and init reaps it. -/
theorem death_final_oneChild :
    ∃ info, (Run.exec step (new Sche.ThreadTable.new) oneChild).processes.get ⟨1, 1⟩ = some info ∧
      (∀ later, later <+: [.signal ⟨1, 1⟩ .SIGCONT, .reap initPid ⟨1, 1⟩] → ∀ info',
        (Run.exec step (new Sche.ThreadTable.new)
          (oneChild ++ .exit ⟨1, 1⟩ 7 :: later)).processes.get ⟨1, 1⟩ = some info' →
          info'.state.isAlive = false ∧ info'.exitCode = some 7) ∧
      Run.Along step (NotEndedBy ⟨1, 1⟩)
        (Run.exec step (new Sche.ThreadTable.new) (oneChild ++ [.exit ⟨1, 1⟩ 7]))
        [.signal ⟨1, 1⟩ .SIGCONT, .reap initPid ⟨1, 1⟩] ∧
      Run.Along step (ReapedRightly ⟨1, 1⟩ info.parent 7)
        (Run.exec step (new Sche.ThreadTable.new) (oneChild ++ [.exit ⟨1, 1⟩ 7]))
        [.signal ⟨1, 1⟩ .SIGCONT, .reap initPid ⟨1, 1⟩] ∧
      Run.count step (Reaps ⟨1, 1⟩) (new Sche.ThreadTable.new)
        (oneChild ++ .exit ⟨1, 1⟩ 7 :: [.signal ⟨1, 1⟩ .SIGCONT, .reap initPid ⟨1, 1⟩]) ≤ 1 :=
  death_final
    (fun i => (Run.count_le_length step (Allocates i) _ _).trans_lt (by decide))
    (by decide +kernel)

/-- The process that a call reports to have ended, by its result alone. -/
def reportedEnd (s : ProcServer) : ProcCall → Option (ProcessId × ℤ)
  | .signal target sig =>
      if sig.defaultAction = .terminate ∧ (s.sendSignal target sig).1.isOk then
        some (target, -sig.number)
      else none
  | c => s.terminated c

/-- A registered process is not running yet: `send_signal` drops a `SIGKILL` to it and reports
success, and the process lives on. -/
theorem dropped_signal :
    ¬ ∀ (tasks : Sche.ThreadTable) (pre post : List ProcCall) (c : ProcCall) (p : ProcessId)
      (code : ℤ),
      (∀ i, Run.count step (Allocates i) (new tasks) (pre ++ c :: post) < 65535) →
      (Run.exec step (new tasks) pre).reportedEnd c = some (p, code) →
      ∀ info, (Run.exec step (new tasks) (pre ++ [c])).processes.get p = some info →
        info.state.isAlive = false := by
  intro h
  have hdead := h Sche.ThreadTable.new [.register .null 1 [0x6d] 150] []
    (.signal ⟨0, 1⟩ .SIGKILL) ⟨0, 1⟩ (-9)
    (fun i => (Run.count_le_length step (Allocates i) _ _).trans_lt (by decide))
    (by decide +kernel) (ProcessInfo.new .null [0x6d] 150 1 .null) (by decide +kernel)
  cases hdead

/-! ## Zombies and their parents -/

/-- Every zombie has a parent alive, whose `reap` takes it out of the table. -/
def Reapable (s : ProcServer) : Prop := ∀ i info, s.processes.slots i = some info →
  info.state = .zombie → ∃ parent, s.processes.get info.parent = some parent ∧
    parent.state.isAlive = true ∧
    (s.reap info.parent ⟨i, s.processes.generations i⟩).1.isOk = true

/-- A call that is to end process `p`. -/
def EndsProcess (s : ProcServer) (p : ProcessId) : ProcCall → Prop
  | .exit pid _ => pid = p
  | .kill pid => pid = p
  | .signal target sig => target = p ∧ sig.defaultAction = .terminate ∧
      ∃ info, s.processes.get target = some info ∧ info.state.canReceiveSignal = true
  | _ => False

/-- The process that the call is to end has no zombie child left. -/
def NoZombieLeft (s : ProcServer) (c : ProcCall) : Prop := ∀ p, s.EndsProcess p c →
  ∀ i info, s.processes.slots i = some info → info.state = .zombie → info.parent ≠ p

theorem endsProcess_of_terminated (h : s.terminated c = some (p, code)) : s.EndsProcess p c := by
  cases c with
  | exit pid exitCode =>
    simp only [terminated, Option.ite_none_right_eq_some, Option.some.injEq, Prod.mk.injEq] at h
    exact h.2.1
  | kill pid =>
    simp only [terminated, Option.ite_none_right_eq_some, Option.some.injEq, Prod.mk.injEq] at h
    exact h.2.1
  | signal target sig =>
    simp only [terminated, Option.ite_none_right_eq_some, Option.some.injEq, Prod.mk.injEq,
      Option.any_eq_true] at h
    exact ⟨h.2.1, h.1.1, h.1.2.2⟩
  | bootstrap as servers => cases h
  | register parent as name priority => cases h
  | spawn parent name => cases h
  | reap parent child => cases h

/-- A zombie that its id reaches is reaped by its parent. -/
theorem reap_isOk {i : ℕ} {info : ProcessInfo}
    (hget : s.processes.get ⟨i, s.processes.generations i⟩ = some info)
    (hz : info.state = .zombie) :
    (s.reap info.parent ⟨i, s.processes.generations i⟩).1.isOk = true := by
  simp only [reap, hget, hz, ne_eq, not_true_eq_false, if_false]
  rfl

theorem get_of_reap_isOk {q : ProcessId} (h : (s.reap parent q).1.isOk = true) :
    ∃ info, s.processes.get q = some info := by
  cases hr : (s.reap parent q).1 with
  | error e =>
    rw [hr] at h
    cases h
  | ok code =>
    obtain ⟨info, hget, -⟩ := reap_eq_ok hr
    exact ⟨info, hget⟩

/-- A process alive stays alive unless the call ends it. -/
theorem get_alive_step {info : ProcessInfo} (hget : s.processes.get p = some info)
    (halive : info.state.isAlive = true) (hnot : NotEndedBy p s c) :
    ∃ info', (s.step c).processes.get p = some info' ∧ info'.state.isAlive = true := by
  obtain ⟨hn, hlt, hg, hs⟩ := ProcessTable.get_eq_some.mp hget
  cases slotChange_step s c p.index with
  | same slot gen =>
    exact ⟨info, ProcessTable.get_eq_some.mpr ⟨hn, hlt, hg.trans gen.symm, slot.trans hs⟩, halive⟩
  | filled info' free slot alive call gen =>
    rw [hs] at free
    cases free
  | paused info' st old alive alive' slot gen =>
    exact ⟨_, ProcessTable.get_eq_some.mpr ⟨hn, hlt, hg.trans gen.symm, slot⟩, alive'⟩
  | died info' code' old alive ended slot gen =>
    have hpid : (⟨p.index, s.processes.generations p.index⟩ : ProcessId) = p :=
      ProcessId.ext rfl hg.symm
    rw [hpid] at ended
    exact absurd ended (hnot code')
  | reaped info' old zombie call slot gen =>
    rw [hs, Option.some.injEq] at old
    rw [old, zombie] at halive
    cases halive

theorem Reapable.step (h : s.Reapable) (hc : s.NoZombieLeft c) : (s.step c).Reapable := by
  intro i info hs hz
  cases slotChange_step s c i with
  | same slot gen =>
    rw [slot] at hs
    obtain ⟨parent, hparent, halive, hreap⟩ := h i info hs hz
    have hnot : NotEndedBy info.parent s c := fun code hcode =>
      hc _ (endsProcess_of_terminated hcode) i info hs hz rfl
    obtain ⟨parent', hparent', halive'⟩ := get_alive_step hparent halive hnot
    refine ⟨parent', hparent', halive', reap_isOk ?_ hz⟩
    obtain ⟨info', hget⟩ := get_of_reap_isOk hreap
    obtain ⟨hn, hlt, -, -⟩ := ProcessTable.get_eq_some.mp hget
    rw [gen]
    exact ProcessTable.get_eq_some.mpr ⟨hn, hlt, gen.symm, slot.trans hs⟩
  | filled info' free slot alive call gen =>
    rw [hs, Option.some.injEq] at slot
    rw [← slot, hz] at alive
    cases alive
  | paused info' st old alive alive' slot gen =>
    rw [hs, Option.some.injEq] at slot
    have hst : st = .zombie := by
      rw [slot] at hz
      exact hz
    rw [hst] at alive'
    cases alive'
  | died info' code' old alive ended slot gen =>
    obtain ⟨⟨_, hget, -⟩, -⟩ := terminated_eq_some ended
    obtain ⟨hn, hlt, -, -⟩ := ProcessTable.get_eq_some.mp hget
    rcases slot with hnone | ⟨hzombie, parent, hparent, halive⟩
    · rw [hs] at hnone
      cases hnone
    · rw [hs, Option.some.injEq] at hzombie
      subst hzombie
      refine ⟨parent, hparent, halive, reap_isOk ?_ hz⟩
      rw [gen]
      exact ProcessTable.get_eq_some.mpr ⟨hn, hlt, gen.symm, hs⟩
  | reaped info' old zombie call slot gen =>
    rw [hs] at slot
    cases slot

/-- A call that is to end a process alive ends it. -/
theorem terminated_of_endsProcess {info : ProcessInfo} (h : s.EndsProcess p c)
    (hget : s.processes.get p = some info) (halive : info.state.isAlive = true) :
    ∃ code, s.terminated c = some (p, code) := by
  have hok : ∀ code, (s.exit p code).1.isOk = true := fun code => by
    rw [exit_of_alive hget halive]
    rfl
  cases c with
  | exit pid exitCode =>
    obtain rfl := h
    exact ⟨exitCode, if_pos (hok exitCode)⟩
  | kill pid =>
    obtain rfl := h
    exact ⟨-9, if_pos (hok (-9))⟩
  | signal target sig =>
    obtain ⟨rfl, hact, info', hget', hrecv⟩ := h
    refine ⟨-sig.number, if_pos ⟨hact, ?_, by rw [hget']; exact hrecv⟩⟩
    simpa only [sendSignal, hget', hrecv, hact, Bool.not_true, Bool.false_eq_true, if_false] using
      hok (-sig.number)
  | bootstrap as servers => cases h
  | register parent as name priority => cases h
  | spawn parent name => cases h
  | reap parent child => cases h

/-- A process that ends before its zombie child is reaped leaves the child behind. -/
theorem Reapable.not_step (h : s.Reapable) (hc : ¬ s.NoZombieLeft c) : ¬ (s.step c).Reapable := by
  simp only [NoZombieLeft, not_forall, not_not] at hc
  obtain ⟨p, hends, i, info, hs, hz, rfl⟩ := hc
  obtain ⟨parent, hparent, halive, -⟩ := h i info hs hz
  obtain ⟨code, hend⟩ := terminated_of_endsProcess hends hparent halive
  obtain ⟨pinfo, -, hended⟩ := spent_or_waits hend
  intro hafter
  obtain ⟨-, hstill | ⟨hreap, -⟩⟩ := zombie_step (c := c) hs hz
  · obtain ⟨parent', hget', halive', -⟩ := hafter i info hstill hz
    have hgone : Ended info.parent pinfo.parent code (s.step c) := hended
    have hdead := hgone.get hget'
    rw [hdead.1] at halive'
    cases halive'
  · subst hreap
    cases hend

theorem reapable_new (tasks : Sche.ThreadTable) : (new tasks).Reapable := by
  intro i info hs
  cases hs

/-- **Zombies are reapable exactly as long as no process ends before its zombie children**: in
every state of a run each zombie has a parent alive that can reap it, if and only if no call of
the run ends a process that still has a zombie child. -/
theorem reapable_iff (tasks : Sche.ThreadTable) (calls : List ProcCall) :
    (∀ pre, pre <+: calls → (Run.exec step (new tasks) pre).Reapable) ↔
      Run.Along step NoZombieLeft (new tasks) calls := by
  have hstep : ∀ s c, Reapable s → NoZombieLeft s c → Reapable (step s c) :=
    fun s c hs hc => hs.step hc
  have hbreak : ∀ s c, Reapable s → ¬ NoZombieLeft s c → ¬ Reapable (step s c) :=
    fun s c hs hc => hs.not_step hc
  exact Run.forall_prefix_iff_along (fun _ hs => hs) hstep hbreak (reapable_new tasks) calls

/-- A process, its child and its grandchild end, the youngest first. -/
def twoGenerations : List ProcCall :=
  [.bootstrap 1 [], .spawn initPid [0x61], .spawn ⟨1, 1⟩ [0x62], .exit ⟨2, 1⟩ 0, .exit ⟨1, 1⟩ 0]

/-- The grandchild is then a zombie whose parent is a zombie itself. -/
theorem twoGenerations_not_reapable :
    ¬ ∀ pre : List ProcCall, pre <+: twoGenerations →
      (Run.exec step (new Sche.ThreadTable.new) pre).Reapable := by
  intro h
  have hslot : (Run.exec step (new Sche.ThreadTable.new) twoGenerations).processes.slots 2 =
      some ((ProcessInfo.new .null [0x62] 128 0 ⟨1, 1⟩).toZombie 0) := by decide +kernel
  obtain ⟨parent, hparent, halive, -⟩ := h _ (List.prefix_refl _) 2 _ hslot rfl
  have hzombie : (Run.exec step (new Sche.ThreadTable.new) twoGenerations).processes.get ⟨1, 1⟩ =
      some ((ProcessInfo.new .null [0x61] 128 0 initPid).toZombie 0) := by decide +kernel
  cases Option.some.inj (hzombie.symm.trans hparent)
  cases halive

end ProcServer

end QuackOS.Proc
