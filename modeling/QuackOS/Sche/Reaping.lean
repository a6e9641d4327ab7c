import QuackOS.Sche.Lifecycle

/-!
# Exit and reaping

A thread that calls `sys_exit_thread` stays in the table until its parent's `sys_wait4` destroys
it.  The parent link is set by `sys_clone` and by nobody else, and nobody changes it when the
parent goes first.

* `Family` — who is alive, who has exited with which code, and who is whose parent;
* `Family.Step` — what one call can do to it (`step_family`: every call of the model does that);
* `wait4_reaps`, `phaseAfter_run` — `sys_wait4` returns an exited child while there is one, and
  none twice;
* `reapable_iff_leavesNobody` — every exited thread can be reaped exactly as long as threads exit
  before their parents, and after their children have been reaped.
-/

namespace QuackOS.Sche

/-- Where an id is in its life. -/
inductive Phase
  | absent
  | alive
  | exited (code : BitVec 32)
  deriving DecidableEq, Repr

/-- What `sys_wait4` reports: `WIFEXITED` and `WEXITSTATUS` of an exit code. -/
def waitStatus (code : BitVec 32) : BitVec 32 := (code &&& 0xFF) <<< 8

/-- The calls that begin or end a thread's life: it was created, it exited, or it was returned
by `sys_wait4`. -/
inductive LifeEvent
  | created (tid : ThreadId)
  | exited (tid : ThreadId) (code : BitVec 32)
  | reaped (tid : ThreadId) (status : BitVec 32)
  deriving DecidableEq, Repr

/-- The thread an event is about. -/
def LifeEvent.tid : LifeEvent → ThreadId
  | .created tid => tid
  | .exited tid _ => tid
  | .reaped tid _ => tid

/-- The life of one id: created, exited, and returned once with the status of its exit code. -/
def Phase.next : Phase → LifeEvent → Option Phase
  | .absent, .created _ => some .alive
  | .alive, .exited _ code => some (.exited code)
  | .exited code, .reaped _ status => if status = waitStatus code then some .absent else none
  | _, _ => none

/-- Where the events of a log have brought an id, if each came in its turn. -/
def phaseAfter (log : List LifeEvent) (tid : ThreadId) : Option Phase :=
  (log.filter fun e => e.tid = tid).foldlM Phase.next .absent

theorem phaseAfter_append_self (log : List LifeEvent) (e : LifeEvent) :
    phaseAfter (log ++ [e]) e.tid = (phaseAfter log e.tid).bind fun p => p.next e := by
  simp [phaseAfter, List.foldlM_append, Option.bind_eq_bind]

theorem phaseAfter_append_of_ne (log : List LifeEvent) {e : LifeEvent} {tid : ThreadId}
    (h : tid ≠ e.tid) : phaseAfter (log ++ [e]) tid = phaseAfter log tid := by
  simp [phaseAfter, Ne.symm h]

/-! ## Families -/

/-- The phase and the parent of every id, and who is on the processor. -/
@[ext] structure Family where
  phase : ThreadId → Phase
  parent : ThreadId → Option ThreadId
  current : ThreadId

namespace Family

/-- Every exited thread has a parent alive that can reap it; the one on the processor has not
come to its end yet. -/
def Reapable (f : Family) : Prop := ∀ tid code, f.phase tid = .exited code → tid ≠ f.current →
  ∃ pid, f.parent tid = some pid ∧ f.phase pid = .alive

/-- What one call does. -/
inductive Step (f f' : Family) : List LifeEvent → Prop
  | switch (hphase : f'.phase = f.phase) (hparent : f'.parent = f.parent)
      (hcur : f'.current = f.current ∨ f.phase f.current = .alive) : Step f f' []
  | created {tid : ThreadId} (hnew : f.phase tid = .absent)
      (hphase : f'.phase = Function.update f.phase tid .alive)
      (hparent : ∀ t, t ≠ tid → f'.parent t = f.parent t) (hcur : f'.current = f.current) :
      Step f f' [.created tid]
  | exited {code : BitVec 32} (halive : f.phase f.current = .alive)
      (hphase : f'.phase = Function.update f.phase f.current (.exited code))
      (hparent : f'.parent = f.parent)
      (hcur : f'.current = f.current ∨ f.phase f'.current = .alive) :
      Step f f' [.exited f.current code]
  | reaped {tid : ThreadId} {code : BitVec 32} (hdead : f.phase tid = .exited code)
      (hchild : f.parent tid = some f.current)
      (hphase : f'.phase = Function.update f.phase tid .absent)
      (hparent : ∀ t, t ≠ tid → f'.parent t = f.parent t) (hcur : f'.current = f.current) :
      Step f f' [.reaped tid (waitStatus code)]

variable {f f' : Family} {log evs : List LifeEvent}

/-- The log and the family agree on where every id is. -/
def Logged (f : Family) (log : List LifeEvent) : Prop :=
  ∀ tid, phaseAfter log tid = some (f.phase tid)

theorem Logged.append_single (h : f.Logged log) {e : LifeEvent} {p : Phase}
    (hnext : (f.phase e.tid).next e = some p) (hphase : f'.phase = Function.update f.phase e.tid p) :
    f'.Logged (log ++ [e]) := by
  intro t
  rw [hphase]
  by_cases ht : t = e.tid
  · rw [ht, Function.update_self, phaseAfter_append_self, h e.tid]
    exact hnext
  · rw [Function.update_of_ne ht, phaseAfter_append_of_ne log ht]
    exact h t

/-- Every call comes in its turn in the life of the thread it is about. -/
theorem Step.logged (hstep : f.Step f' evs) (h : f.Logged log) : f'.Logged (log ++ evs) := by
  cases hstep with
  | switch hphase hparent hcur =>
    intro t
    rw [List.append_nil, hphase]
    exact h t
  | created hnew hphase hparent hcur =>
    refine h.append_single (p := .alive) ?_ hphase
    rw [LifeEvent.tid, hnew]
    rfl
  | exited halive hphase hparent hcur =>
    refine h.append_single ?_ hphase
    rw [LifeEvent.tid, halive]
    rfl
  | reaped hdead hchild hphase hparent hcur =>
    refine h.append_single (p := .absent) ?_ hphase
    rw [LifeEvent.tid, hdead]
    exact if_pos rfl

/-- An exit that leaves nobody behind: if somebody else runs afterwards, the thread has a parent
alive, and it has no child left to reap. -/
def LeavesNobody (f : Family) (switches : Prop) : Prop :=
  (switches → ∃ pid, f.parent f.current = some pid ∧ pid ≠ f.current ∧ f.phase pid = .alive) ∧
    ∀ tid code, f.phase tid = .exited code → f.parent tid ≠ some f.current

/-- A thread that comes or goes is nobody's living parent. -/
theorem Reapable.update (h : f.Reapable) {tid : ThreadId} {p : Phase} (hbefore : f.phase tid ≠ .alive)
    (hafter : ∀ code, p ≠ .exited code) (hphase : f'.phase = Function.update f.phase tid p)
    (hparent : ∀ t, t ≠ tid → f'.parent t = f.parent t) (hcur : f'.current = f.current) :
    f'.Reapable := by
  intro t code ht hne
  have hold : t ≠ tid := by
    rintro rfl
    rw [hphase, Function.update_self] at ht
    exact hafter code ht
  rw [hphase, Function.update_of_ne hold] at ht
  rw [hcur] at hne
  obtain ⟨pid, hpid, halive⟩ := h t code ht hne
  have hpne : pid ≠ tid := by
    rintro rfl
    exact hbefore halive
  exact ⟨pid, (hparent t hold).trans hpid, by rw [hphase, Function.update_of_ne hpne, halive]⟩

/-- Only an exit can leave a thread that nobody can reap. -/
theorem Step.reapable (hstep : f.Step f' evs) (h : f.Reapable)
    (hexit : ∀ code, evs ≠ [.exited f.current code]) : f'.Reapable := by
  cases hstep with
  | switch hphase hparent hcur =>
    intro t code ht hne
    rw [hphase] at ht ⊢
    rw [hparent]
    refine h t code ht ?_
    rintro rfl
    rcases hcur with hsame | halive
    · exact hne hsame.symm
    · rw [halive] at ht
      cases ht
  | created hnew hphase hparent hcur =>
    exact h.update (by rw [hnew]; simp) (by simp) hphase hparent hcur
  | @exited code halive hphase hparent hcur => exact absurd rfl (hexit code)
  | reaped hdead hchild hphase hparent hcur =>
    exact h.update (by rw [hdead]; simp) (by simp) hphase hparent hcur

/-- After an exit everybody can be reaped exactly when it left nobody behind. -/
theorem Reapable.exit_iff (h : f.Reapable) {code : BitVec 32} (halive : f.phase f.current = .alive)
    (hphase : f'.phase = Function.update f.phase f.current (.exited code))
    (hparent : f'.parent = f.parent)
    (hcur : f'.current = f.current ∨ f.phase f'.current = .alive) :
    f'.Reapable ↔ f.LeavesNobody (f'.current ≠ f.current) := by
  have hother : ∀ t, f'.phase t = .alive ↔ t ≠ f.current ∧ f.phase t = .alive := by
    intro t
    rw [hphase]
    by_cases ht : t = f.current
    · simp [ht]
    · simp [ht]
  constructor
  · intro hafter
    refine ⟨fun hswitch => ?_, fun t c ht hchild => ?_⟩
    · obtain ⟨pid, hpid, hpalive⟩ :=
        hafter f.current code (by rw [hphase, Function.update_self]) hswitch.symm
      obtain ⟨hne, hpalive⟩ := (hother pid).mp hpalive
      exact ⟨pid, hparent ▸ hpid, hne, hpalive⟩
    · -- an exited child of the thread that exits
      have hne : t ≠ f.current := by
        rintro rfl
        rw [halive] at ht
        cases ht
      have hne' : t ≠ f'.current := by
        rintro rfl
        rcases hcur with hsame | hrun
        · exact hne hsame
        · rw [hrun] at ht
          cases ht
      obtain ⟨pid, hpid, hpalive⟩ :=
        hafter t c (by rw [hphase, Function.update_of_ne hne, ht]) hne'
      rw [hparent, hchild, Option.some.injEq] at hpid
      exact ((hother pid).mp hpalive).1 hpid.symm
  · rintro ⟨hself, hchildren⟩ t c ht hne
    by_cases hcurt : t = f.current
    · subst hcurt
      obtain ⟨pid, hpid, hpne, hpalive⟩ := hself hne.symm
      exact ⟨pid, hparent ▸ hpid, (hother pid).mpr ⟨hpne, hpalive⟩⟩
    · rw [hphase, Function.update_of_ne hcurt] at ht
      obtain ⟨pid, hpid, hpalive⟩ := h t c ht hcurt
      refine ⟨pid, hparent ▸ hpid, (hother pid).mpr ⟨?_, hpalive⟩⟩
      rintro rfl
      exact hchildren t c ht hpid

end Family

/-! ## The family of a scheduler state -/

/-- Where a thread that is in the table is in its life. -/
def Thread.phase (th : Thread) : Phase := if th.state = .dying then .exited th.exitCode else .alive

namespace Sched

/-- The threads as a family: an id that does not resolve is absent. -/
def family (s : Sched) : Family where
  phase t := (s.table.lookup t).elim .absent Thread.phase
  parent t := (s.table.lookup t).bind (·.parentTid)
  current := s.current

variable {s s' : Sched} {t : ThreadId} {th : Thread}

theorem phase_of_lookup (h : s.table.lookup t = some th) : s.family.phase t = th.phase := by
  simp [family, h]

theorem parent_of_lookup (h : s.table.lookup t = some th) : s.family.parent t = th.parentTid := by
  simp [family, h]

theorem phase_alive_iff : s.family.phase t = .alive ↔
    ∃ th, s.table.lookup t = some th ∧ th.state ≠ .dying := by
  cases hl : s.table.lookup t with
  | none => simp [family, hl]
  | some th => simp [family, hl, Thread.phase]

theorem phase_exited_iff {code : BitVec 32} : s.family.phase t = .exited code ↔
    ∃ th, s.table.lookup t = some th ∧ th.state = .dying ∧ th.exitCode = code := by
  cases hl : s.table.lookup t with
  | none => simp [family, hl]
  | some th =>
    by_cases hd : th.state = .dying
    · simp [family, hl, Thread.phase, hd]
    · simp [family, hl, Thread.phase, hd]

/-- Changes that no phase and no parent notices. -/
theorem family_withThreadMut {f : Thread → Thread} (hid : ∀ th, (f th).id = th.id)
    (hphase : ∀ th, s.table.lookup t = some th → (f th).phase = th.phase)
    (hparent : ∀ th, (f th).parentTid = th.parentTid) :
    ({ s with table := s.table.withThreadMut t f } : Sched).family = s.family := by
  refine Family.ext (funext fun u => ?_) (funext fun u => ?_) rfl
  · show Option.elim ((s.table.withThreadMut t f).lookup u) _ _ = _
    rw [ThreadTable.lookup_withThreadMut _ hid]
    split
    case isTrue hu =>
      subst hu
      cases hl : s.table.lookup u with
      | none => simp [family, hl]
      | some th => simp [family, hl, hphase th hl]
    case isFalse hu => rfl
  · show Option.bind ((s.table.withThreadMut t f).lookup u) _ = _
    rw [ThreadTable.lookup_withThreadMut _ hid]
    split
    case isTrue hu =>
      subst hu
      cases hl : s.table.lookup u with
      | none => simp [family, hl]
      | some th => simp [family, hl, hparent]
    case isFalse hu => rfl

theorem family_wake (h : ∀ th, s.table.lookup t = some th → th.state ≠ .dying) :
    (s.wake t).family = s.family := by
  unfold Sched.wake
  split
  · rfl
  · cases hl : s.table.lookup t with
    | none => rfl
    | some th =>
      exact family_withThreadMut (fun _ => rfl) (fun th' hl' => by simp [Thread.phase, h th' hl'])
        (fun _ => rfl)

theorem family_markBlocked (ipc : IpcState)
    (h : ∀ th, s.table.lookup s.current = some th → th.state ≠ .dying) :
    (s.markBlocked ipc).family = s.family := by
  unfold Sched.markBlocked
  split
  · rfl
  · exact family_withThreadMut (fun _ => rfl) (fun th' hl' => by simp [Thread.phase, h th' hl'])
      (fun _ => rfl)

theorem phase_yielded (th : Thread) : th.yielded.phase = th.phase := by
  unfold Thread.yielded
  split
  case h_1 hrun => simp [Thread.phase, hrun]
  case h_2 => rfl

variable {L : Prop}

/-- `schedule` changes who runs, and nothing about the family else. -/
theorem Consistent.family_schedule (h : s.Consistent L) :
    s.schedule.family.phase = s.family.phase ∧ s.schedule.family.parent = s.family.parent := by
  rcases hdeq : s.ready.dequeueReady with ⟨_ | next, rq⟩
  · rw [show s.schedule = s by unfold Sched.schedule; rw [hdeq]]
    exact ⟨rfl, rfl⟩
  · obtain ⟨nth, cur, hnext, hnst, hcur, -, hne, -, hlook⟩ := h.schedule_eq hdeq
    refine ⟨funext fun u => ?_, funext fun u => ?_⟩
    · show Option.elim (s.schedule.table.lookup u) _ _ = _
      rw [hlook]
      split
      case isTrue hu =>
        rw [hu, phase_of_lookup hnext]
        simp [Thread.phase, hnst]
      case isFalse hu =>
        split
        case isTrue hu' =>
          rw [hu', phase_of_lookup hcur]
          exact phase_yielded cur
        case isFalse hu' => rfl
    · show Option.bind (s.schedule.table.lookup u) _ = _
      rw [hlook]
      split
      case isTrue hu =>
        rw [hu, parent_of_lookup hnext]
        rfl
      case isFalse hu =>
        split
        case isTrue hu' =>
          rw [hu', parent_of_lookup hcur]
          exact yielded_parentTid cur
        case isFalse hu' => rfl

/-- A state between two calls: the current thread runs, or nobody can run and it stays in its
wait loop. -/
structure Settled (s : Sched) : Prop extends Consistent False s where
  settled : (∀ th, s.table.lookup s.current = some th → th.state = .running) ∨ ¬ s.HasReady

theorem Settled.of_invariant (h : s.Invariant False) : s.Settled := ⟨h.toConsistent, .inl h.runs⟩

/-- After `schedule` somebody else runs, if anybody was runnable, and else nothing has
changed. -/
theorem Consistent.schedule_settled (h : s.Consistent False) :
    (s.HasReady ∧ s.schedule.Settled ∧ s.schedule.current ≠ s.current ∧
      s.family.phase s.schedule.current = .alive) ∨ (¬ s.HasReady ∧ s.schedule = s) := by
  by_cases hready : s.HasReady
  · obtain ⟨next, rq, hdeq⟩ := h.dequeue_of_hasReady hready
    obtain ⟨nth, cur, hnext, hnst, -, -, hne, hsched, -⟩ := h.schedule_eq hdeq
    have hcur : s.schedule.current = next := by rw [hsched]
    refine .inl ⟨hready, .of_invariant (h.schedule hdeq fun _ _ _ hL => hL.elim), ?_, ?_⟩
    · rwa [hcur]
    · rw [hcur, phase_alive_iff]
      exact ⟨nth, hnext, by simp [hnst]⟩
  · refine .inr ⟨hready, ?_⟩
    rcases ReadyQueue.dequeueReady_spec h.valid with ⟨hnone, -⟩ | ⟨p, n, rest, rq, -, hlist, -⟩
    · unfold Sched.schedule
      rw [hnone]
    · exact absurd ⟨p, by rw [hlist]; simp⟩ hready

/-- A woken thread makes the queue non-empty, whether or not it found room itself. -/
theorem Consistent.hasReady_wake (h : s.Consistent L) (hl : s.table.lookup t = some th) :
    (s.wake t).HasReady := by
  refine ⟨th.effectivePriority, ?_⟩
  unfold Sched.wake
  simp only [(ThreadTable.lookup_eq_some.mp hl).1, hl, Bool.false_eq_true, if_false]
  rw [(ReadyQueue.enqueueReady_spec h.valid t _).2]
  split
  case isTrue hroom => simp
  case isFalse hfull =>
    intro hnil
    exact hfull ⟨rfl, by rw [hnil]; decide⟩

/-- A parent that waits is alive, and not the thread that exits. -/
theorem Invariant.alive_of_waitingParent (h : s.Invariant L) {pid : ThreadId}
    (hp : s.waitingParent = some pid) :
    s.family.parent s.current = some pid ∧ pid ≠ s.current ∧
      ∃ p, s.table.lookup pid = some p ∧ p.state = .blocked := by
  obtain ⟨hparent, hany⟩ := Option.filter_eq_some_iff.mp hp
  obtain ⟨p, hl, hwaits⟩ := (Option.any_eq_true _ _).mp hany
  have hblocked := h.waiting pid p hl (beq_iff_eq.mp hwaits)
  exact ⟨hparent, h.ne_current hl (by rw [hblocked]; simp), p, hl, hblocked⟩

/-- What marking the current thread does to the family. -/
theorem Invariant.family_markDying (h : s.Invariant L) (code : BitVec 32) :
    (s.markDying code).family.phase = Function.update s.family.phase s.current (.exited code) ∧
      (s.markDying code).family.parent = s.family.parent := by
  obtain ⟨cur, hcur, -⟩ := h.current
  set f : Thread → Thread := fun th => { th with exitCode := code, state := .dying }
  have hlook : ∀ u, (s.markDying code).table.lookup u =
      if u = s.current then some (f cur) else s.table.lookup u := by
    intro u
    refine (ThreadTable.lookup_withThreadMut s.table (f := f) (fun _ => rfl) _ u).trans ?_
    rw [hcur]
    rfl
  refine ⟨funext fun u => ?_, funext fun u => ?_⟩
  · show Option.elim ((s.markDying code).table.lookup u) _ _ = _
    rw [hlook]
    by_cases hu : u = s.current
    · rw [if_pos hu, hu, Function.update_self]
      rfl
    · rw [if_neg hu, Function.update_of_ne hu]
      rfl
  · show Option.bind ((s.markDying code).table.lookup u) _ = _
    rw [hlook]
    by_cases hu : u = s.current
    · rw [if_pos hu, hu, parent_of_lookup hcur]
      rfl
    · rw [if_neg hu]
      rfl

/-- The state in which `sys_exit_thread` calls `schedule`. -/
theorem Invariant.before_schedule (h : s.Invariant False) (code : BitVec 32) :
    ∃ s₁ : Sched, s.sysExitThread code = s₁.schedule ∧ s₁.Consistent False ∧
      s₁.family = (s.markDying code).family ∧
      (s₁.HasReady ↔ s.HasReady ∨ s.waitingParent ≠ none) := by
  obtain ⟨hcons, hdying⟩ := h.markDying code
  unfold Sched.sysExitThread
  simp only [waitingParent_markDying]
  cases hp : s.waitingParent with
  | none => exact ⟨_, rfl, hcons, rfl, by simp [HasReady, Sched.markDying]⟩
  | some pid =>
    obtain ⟨-, hne, p, hl, hblocked⟩ := h.alive_of_waitingParent hp
    have hsame : (s.markDying code).table.lookup pid = some p := by
      refine (ThreadTable.lookup_withThreadMut s.table (by intro _; rfl) _ pid).trans ?_
      rw [if_neg hne, hl]
    have hstate : ∀ th, (s.markDying code).table.lookup pid = some th → th.state = .blocked := by
      intro th hth
      rw [hsame, Option.some.injEq] at hth
      rw [← hth, hblocked]
    refine ⟨_, rfl, hcons.wake fun th hth => ⟨?_, hne, fun hL => hL.elim⟩, ?_, ?_⟩
    · rw [hstate th hth]
      simp
    · exact family_wake fun th hth => by rw [hstate th hth]; simp
    · simp [hcons.hasReady_wake hsame]

/-- **What `sys_exit_thread` does**: the current thread is marked with its exit code, and somebody
else runs if anybody was runnable or the parent was waiting. -/
theorem Invariant.sysExitThread_family (h : s.Invariant False) (code : BitVec 32) :
    (s.sysExitThread code).Settled ∧
      (s.sysExitThread code).family.phase =
        Function.update s.family.phase s.current (.exited code) ∧
      (s.sysExitThread code).family.parent = s.family.parent ∧
      ((s.sysExitThread code).current = s.current ∧ ¬ (s.HasReady ∨ s.waitingParent ≠ none) ∨
        (s.sysExitThread code).current ≠ s.current ∧ (s.HasReady ∨ s.waitingParent ≠ none) ∧
          s.family.phase (s.sysExitThread code).current = .alive) := by
  obtain ⟨hphase, hparent⟩ := h.family_markDying code
  obtain ⟨s₁, hexit, hcons, hfamily, hready⟩ := h.before_schedule code
  have hcur₁ : s₁.current = s.current := congrArg Family.current hfamily
  obtain ⟨hphase₁, hparent₁⟩ := hcons.family_schedule
  rw [hexit, hphase₁, hparent₁, hfamily]
  rcases hcons.schedule_settled with ⟨hr, hsettled, hne, halive⟩ | ⟨hr, hsame⟩
  · rw [hcur₁] at hne
    rw [hfamily, hphase, Function.update_of_ne hne] at halive
    exact ⟨hsettled, hphase, hparent, .inr ⟨hne, hready.mp hr, halive⟩⟩
  · rw [hsame, hcur₁]
    exact ⟨⟨hcons, .inr hr⟩, hphase, hparent, .inl ⟨rfl, fun hor => hr (hready.mpr hor)⟩⟩

/-! ## The calls -/

/-- The current thread is in user code. -/
def inUser (s : Sched) : Bool := (s.table.lookup s.current).any fun th => th.state == .running

/-- The current thread is in the endless loop at the end of `sys_exit_thread`. -/
def inExit (s : Sched) : Bool := (s.table.lookup s.current).any fun th => th.state == .dying

theorem Settled.invariant (h : s.Settled) (huser : s.inUser = true) :
    s.Invariant False := by
  obtain ⟨cur, hcur, hrun⟩ := (Option.any_eq_true _ _).mp huser
  refine ⟨h.toConsistent, fun th hth => ?_⟩
  rw [hcur, Option.some.injEq] at hth
  rw [← hth]
  exact beq_iff_eq.mp hrun

end Sched

/-- The calls of the current thread, and `yield` for whatever makes it give way.  `clone` has the
address space of the child. -/
inductive ThreadCall
  | createThread
  | clone (ttbr0 asid : BitVec 64)
  | exitThread (code : BitVec 32)
  | wait4
  | yield

/-- The scheduler, with the log of the calls that began or ended a thread's life. -/
structure Lives where
  sched : Sched
  log : List LifeEvent

namespace Lives

/-- At boot there is the boot thread. -/
def start : Lives := ⟨Sched.boot, [.created Sched.bootTid]⟩

/-- `sys_create_thread`, and `sys_clone` for a `child`, at the default priority. -/
def create (s : Lives) (ttbr0 asid : BitVec 64) (child : Bool) : Lives :=
  match s.sched.create 128 ttbr0 asid child with
  | none => s
  | some (tid, sched) => ⟨sched, s.log ++ [.created tid]⟩

/-- `sys_exit_thread`. -/
def exitThread (s : Lives) (code : BitVec 32) : Lives :=
  ⟨s.sched.sysExitThread code, s.log ++ [.exited s.sched.current code]⟩

/-- One pass of `sys_wait4`. -/
def wait4 (s : Lives) : Lives :=
  match s.sched.sysWait4 with
  | (.reaped tid status, sched) => ⟨sched, s.log ++ [.reaped tid status]⟩
  | (_, sched) => { s with sched }

/-- One call.  A thread calls from user code; one that `sys_wait4` could not switch away from makes
its next pass, and one that has exited makes no more calls. -/
def step (s : Lives) : ThreadCall → Lives
  | .createThread => if s.sched.inUser then s.create 0 0 false else s
  | .clone ttbr0 asid => if s.sched.inUser then s.create ttbr0 asid true else s
  | .exitThread code => if s.sched.inUser then s.exitThread code else s
  | .wait4 => if s.sched.inExit then s else s.wait4
  | .yield => { s with sched := s.sched.schedule }

/-- What a call does, as far as the family goes; nobody exits in it unless `exits`. -/
structure Does (s s' : Lives) (exits : Prop) : Prop where
  settled : s'.sched.Settled
  step : ∃ evs, s'.log = s.log ++ evs ∧ s.sched.family.Step s'.sched.family evs ∧
    (exits ∨ ∀ code, evs ≠ [.exited s.sched.current code])

variable {s : Lives} {exits : Prop}

/-- A call that changes nothing. -/
theorem does_refl (h : s.sched.Settled) : s.Does s exits :=
  ⟨h, [], (List.append_nil _).symm, .switch rfl rfl (.inl rfl), .inr (by simp)⟩

theorem does_create (h : s.sched.Settled) (huser : s.sched.inUser = true) (ttbr0 asid : BitVec 64)
    (child : Bool) : s.Does (s.create ttbr0 asid child) exits := by
  unfold Lives.create
  cases hc : s.sched.create 128 ttbr0 asid child with
  | none => exact does_refl h
  | some r =>
    obtain ⟨tid, sched⟩ := r
    have hinv := h.invariant huser
    obtain ⟨hcons, hcur, hne, hfree, nth, hnst, -, hlook⟩ :=
      hinv.toConsistent.create hc fun hL => hL.elim
    have hsettled : sched.Settled :=
      .of_invariant (hinv.of_consistent hcons hcur (by rw [hlook, if_neg hne.symm]))
    refine ⟨hsettled, [.created tid], rfl, .created ?_ (funext fun u => ?_) (fun u hu => ?_) hcur,
      .inr (by simp)⟩
    · simp [Sched.family, hfree]
    · show Option.elim (sched.table.lookup u) _ _ = _
      rw [hlook]
      by_cases hu : u = tid
      · rw [if_pos hu, hu, Function.update_self]
        simp [Thread.phase, hnst]
      · rw [if_neg hu, Function.update_of_ne hu]
        rfl
    · show Option.bind (sched.table.lookup u) _ = _
      rw [hlook, if_neg hu]
      rfl

theorem does_exitThread (h : s.sched.Settled) (huser : s.sched.inUser = true) (code : BitVec 32) :
    s.Does (s.exitThread code) True := by
  have hinv := h.invariant huser
  obtain ⟨cur, hl, -⟩ := hinv.current
  have halive : s.sched.family.phase s.sched.current = .alive :=
    Sched.phase_alive_iff.mpr ⟨cur, hl, by rw [hinv.runs cur hl]; simp⟩
  obtain ⟨hsettled, hphase, hparent, hcur⟩ := hinv.sysExitThread_family code
  refine ⟨hsettled, [.exited s.sched.current code], rfl, .exited halive hphase hparent ?_,
    .inl trivial⟩
  rcases hcur with ⟨hsame, -⟩ | ⟨-, -, hnext⟩
  · exact .inl hsame
  · exact .inr hnext

/-- A child returned by `sys_wait4` is one that has exited. -/
theorem does_reap (h : s.sched.Settled) {c : Thread} (hc : c ∈ s.sched.children)
    (hdy : c.state = .dying) (hne : c.id ≠ s.sched.current) :
    s.Does ⟨{ s.sched with table := s.sched.table.destroyThread c.id },
      s.log ++ [.reaped c.id (waitStatus c.exitCode)]⟩ exits := by
  obtain ⟨hl, -⟩ := h.lookup_child hc
  have hparent := beq_iff_eq.mp (List.mem_filter.mp hc).2
  have hlook := ThreadTable.lookup_destroyThread s.sched.table c.id
  refine ⟨⟨h.reap hc hdy hne, ?_⟩, _, rfl, .reaped ?_ ?_ (funext fun u => ?_)
    (fun u hu => ?_) rfl, .inr (by simp)⟩
  · rcases h.settled with hrun | hidle
    · left
      intro th hth
      rw [hlook, if_neg hne.symm] at hth
      exact hrun th hth
    · exact .inr hidle
  · exact Sched.phase_exited_iff.mpr ⟨c, hl, hdy, rfl⟩
  · rw [Sched.parent_of_lookup hl, hparent]
    rfl
  · show Option.elim ((s.sched.table.destroyThread c.id).lookup u) _ _ = _
    rw [hlook]
    by_cases hu : u = c.id
    · rw [if_pos hu, hu, Function.update_self]
      rfl
    · rw [if_neg hu, Function.update_of_ne hu]
      rfl
  · show Option.bind ((s.sched.table.destroyThread c.id).lookup u) _ = _
    rw [hlook, if_neg hu]
    rfl

/-- A pass of `sys_wait4` that blocks. -/
theorem does_block (h : s.sched.Settled) (hexit : s.sched.inExit = false) :
    s.Does { s with sched := s.sched.blockCurrent .blockedOnWait4 } exits := by
  have hlive : ∀ th, s.sched.table.lookup s.sched.current = some th → th.state ≠ .dying := by
    intro th hth hdy
    simp [Sched.inExit, hth, hdy] at hexit
  obtain ⟨cur, hl, -⟩ := h.current
  have hcons := h.toConsistent.markBlocked .blockedOnWait4
  have hfamily := Sched.family_markBlocked .blockedOnWait4 hlive
  obtain ⟨hphase, hparent⟩ := hcons.family_schedule
  rw [hfamily] at hphase hparent
  refine ⟨?_, [], (List.append_nil _).symm, .switch hphase hparent
    (.inr (Sched.phase_alive_iff.mpr ⟨cur, hl, hlive cur hl⟩)), .inr (by simp)⟩
  rcases hcons.schedule_settled with ⟨-, hsettled, -⟩ | ⟨hidle, hsame⟩
  · exact hsettled
  · show ((s.sched.markBlocked .blockedOnWait4).schedule).Settled
    rw [hsame]
    exact ⟨hcons, .inr hidle⟩

theorem does_wait4 (h : s.sched.Settled) (hexit : s.sched.inExit = false) :
    s.Does s.wait4 exits := by
  unfold Lives.wait4 Sched.sysWait4
  cases hf : s.sched.children.find? fun th => th.state == .dying with
  | some c =>
    have hc := List.mem_of_find?_eq_some hf
    have hfound := List.find?_some hf
    have hdy := beq_iff_eq.mp hfound
    refine does_reap h hc hdy ?_
    intro heq
    obtain ⟨hl, -⟩ := h.lookup_child hc
    rw [heq] at hl
    simp [Sched.inExit, hl, hdy] at hexit
  | none =>
    dsimp only
    by_cases hnone : s.sched.children.isEmpty = true
    · rw [if_pos hnone]
      exact does_refl h
    · rw [if_neg hnone]
      exact does_block h hexit

theorem does_yield (h : s.sched.Settled) : s.Does { s with sched := s.sched.schedule } exits := by
  rcases h.toConsistent.schedule_settled with ⟨hready, hsettled, -⟩ | ⟨-, hsame⟩
  · obtain ⟨cur, hl, -⟩ := h.current
    have hrun := (h.settled.resolve_right (not_not_intro hready)) cur hl
    obtain ⟨hphase, hparent⟩ := h.toConsistent.family_schedule
    refine ⟨hsettled, [], (List.append_nil _).symm, .switch hphase hparent (.inr ?_), .inr (by simp)⟩
    exact Sched.phase_alive_iff.mpr ⟨cur, hl, by rw [hrun]; simp⟩
  · rw [hsame]
    exact does_refl h

/-- **What a call can do**: each is a step of the family, and logs what it did to it. -/
theorem step_family (h : s.sched.Settled) (c : ThreadCall) :
    s.Does (s.step c) (s.sched.inUser = true ∧ ∃ code, c = .exitThread code) := by
  cases c with
  | createThread =>
    rw [step]
    split
    case isTrue huser => exact does_create h huser 0 0 false
    case isFalse => exact does_refl h
  | clone ttbr0 asid =>
    rw [step]
    split
    case isTrue huser => exact does_create h huser ttbr0 asid true
    case isFalse => exact does_refl h
  | exitThread code =>
    rw [step]
    split
    case isTrue huser =>
      obtain ⟨hsettled, evs, hlog, hstep, -⟩ := does_exitThread h huser code
      exact ⟨hsettled, evs, hlog, hstep, .inl ⟨huser, code, rfl⟩⟩
    case isFalse => exact does_refl h
  | wait4 =>
    rw [step]
    split
    case isTrue => exact does_refl h
    case isFalse hexit => exact does_wait4 h (Bool.not_eq_true _ ▸ hexit)
  | yield => exact does_yield h

/-! ## Runs -/

/-- What is promised of every state:
* `adopted` — a thread that has exited, other than the one on the processor, has a parent that is
  there and has not exited;
* `once` — every id was created, exited and returned by `sys_wait4` in turn, each time with the
  status of its exit code. -/
structure Reapable (s : Lives) : Prop where
  adopted : ∀ tid th, s.sched.table.lookup tid = some th → th.state = .dying →
    tid ≠ s.sched.current → ∃ pid p, th.parentTid = some pid ∧
      s.sched.table.lookup pid = some p ∧ p.state ≠ .dying
  once : ∀ tid, phaseAfter s.log tid ≠ none

/-- A call that leaves nobody behind.  A thread exits only
* while another thread, alive, is its parent, unless nobody at all is left to run;
* after its exited children were reaped. -/
def LeavesNobody (s : Lives) : ThreadCall → Prop
  | .exitThread _ => s.sched.inUser = true →
      (s.sched.HasReady → ∃ th pid p, s.sched.table.lookup s.sched.current = some th ∧
        th.parentTid = some pid ∧ pid ≠ s.sched.current ∧
        s.sched.table.lookup pid = some p ∧ p.state ≠ .dying) ∧
      ∀ tid th, s.sched.table.lookup tid = some th → th.state = .dying →
        th.parentTid ≠ some s.sched.current
  | _ => True

theorem adopted_iff : (∀ tid th, s.sched.table.lookup tid = some th → th.state = .dying →
    tid ≠ s.sched.current → ∃ pid p, th.parentTid = some pid ∧
      s.sched.table.lookup pid = some p ∧ p.state ≠ .dying) ↔ s.sched.family.Reapable := by
  constructor
  · intro h tid code ht hne
    obtain ⟨th, hl, hdy, -⟩ := Sched.phase_exited_iff.mp ht
    obtain ⟨pid, p, hpid, hp, hpst⟩ := h tid th hl hdy hne
    exact ⟨pid, (Sched.parent_of_lookup hl).trans hpid, Sched.phase_alive_iff.mpr ⟨p, hp, hpst⟩⟩
  · intro h tid th hl hdy hne
    obtain ⟨pid, hpid, halive⟩ :=
      h tid th.exitCode (Sched.phase_exited_iff.mpr ⟨th, hl, hdy, rfl⟩) hne
    obtain ⟨p, hp, hpst⟩ := Sched.phase_alive_iff.mp halive
    exact ⟨pid, p, (Sched.parent_of_lookup hl).symm.trans hpid, hp, hpst⟩

theorem leavesNobody_exitThread_iff {code : BitVec 32} : s.LeavesNobody (.exitThread code) ↔
    (s.sched.inUser = true → s.sched.family.LeavesNobody s.sched.HasReady) := by
  refine forall_congr' fun _ => and_congr (forall_congr' fun _ => ⟨?_, ?_⟩) ⟨?_, ?_⟩
  · rintro ⟨th, pid, p, hl, hpid, hne, hp, hpst⟩
    exact ⟨pid, (Sched.parent_of_lookup hl).trans hpid, hne, Sched.phase_alive_iff.mpr ⟨p, hp, hpst⟩⟩
  · rintro ⟨pid, hpid, hne, halive⟩
    obtain ⟨th, hl, hth⟩ := Option.bind_eq_some_iff.mp hpid
    obtain ⟨p, hp, hpst⟩ := Sched.phase_alive_iff.mp halive
    exact ⟨th, pid, p, hl, hth, hne, hp, hpst⟩
  · intro h tid code ht hchild
    obtain ⟨th, hl, hdy, -⟩ := Sched.phase_exited_iff.mp ht
    exact h tid th hl hdy ((Sched.parent_of_lookup hl).symm.trans hchild)
  · intro h tid th hl hdy hchild
    exact h tid th.exitCode (Sched.phase_exited_iff.mpr ⟨th, hl, hdy, rfl⟩)
      ((Sched.parent_of_lookup hl).trans hchild)

/-- What holds between the calls of every run: the log tells where each thread is. -/
structure Tracked (s : Lives) : Prop where
  settled : s.sched.Settled
  logged : s.sched.family.Logged s.log

theorem Tracked.once (h : s.Tracked) (tid : ThreadId) : phaseAfter s.log tid ≠ none := by
  rw [h.logged tid]
  simp

theorem Tracked.step (h : s.Tracked) (c : ThreadCall) : (s.step c).Tracked := by
  obtain ⟨hsettled, evs, hlog, hstep, -⟩ := step_family h.settled c
  exact ⟨hsettled, hlog ▸ hstep.logged h.logged⟩

/-- What holds between the calls of a run that leaves nobody behind. -/
structure Inv (s : Lives) : Prop extends Tracked s where
  reapable : s.sched.family.Reapable

/-- After an exit everybody can be reaped exactly when it left nobody behind. -/
theorem Inv.exitThread_iff (h : s.Inv) (huser : s.sched.inUser = true) (code : BitVec 32) :
    (s.exitThread code).sched.family.Reapable ↔ s.LeavesNobody (.exitThread code) := by
  have hinv := h.settled.invariant huser
  obtain ⟨cur, hl, -⟩ := hinv.current
  have halive : s.sched.family.phase s.sched.current = .alive :=
    Sched.phase_alive_iff.mpr ⟨cur, hl, by rw [hinv.runs cur hl]; simp⟩
  obtain ⟨-, hphase, hparent, hcur⟩ := hinv.sysExitThread_family code
  have hcases : (s.sched.sysExitThread code).current = s.sched.current ∨
      s.sched.family.phase (s.sched.sysExitThread code).current = .alive :=
    hcur.imp And.left fun hr => hr.2.2
  rw [leavesNobody_exitThread_iff, forall_prop_of_true huser]
  refine (h.reapable.exit_iff halive hphase hparent hcases).trans (and_congr_left fun _ => ?_)
  -- a parent that waits is woken, so that somebody else runs, and is alive
  cases hp : s.sched.waitingParent with
  | some pid =>
    obtain ⟨hpid, hne, p, hpl, hblocked⟩ := hinv.alive_of_waitingParent hp
    have hgood : ∃ pid, s.sched.family.parent s.sched.family.current = some pid ∧
        pid ≠ s.sched.family.current ∧ s.sched.family.phase pid = .alive :=
      ⟨pid, hpid, hne, Sched.phase_alive_iff.mpr ⟨p, hpl, by rw [hblocked]; simp⟩⟩
    exact ⟨fun _ _ => hgood, fun _ _ => hgood⟩
  | none =>
    have hswitch : (s.sched.sysExitThread code).current ≠ s.sched.current ↔ s.sched.HasReady := by
      rw [hp] at hcur
      rcases hcur with ⟨hsame, hidle⟩ | ⟨hne, hready, -⟩
      · simpa [hsame] using hidle
      · simpa [hne] using hready
    exact imp_congr_left hswitch

theorem Inv.step (h : s.Inv) {c : ThreadCall} (hc : s.LeavesNobody c) : (s.step c).Inv := by
  obtain ⟨-, evs, -, hstep, hquiet⟩ := step_family h.settled c
  refine ⟨h.toTracked.step c, ?_⟩
  rcases hquiet with ⟨huser, code, rfl⟩ | hquiet
  · rw [Lives.step, if_pos huser]
    exact (h.exitThread_iff huser code).mpr hc
  · exact hstep.reapable h.reapable hquiet

theorem Inv.not_step (h : s.Inv) {c : ThreadCall} (hc : ¬ s.LeavesNobody c) :
    ¬ (s.step c).Reapable := by
  cases c with
  | exitThread code =>
    have huser : s.sched.inUser = true := by
      by_contra hidle
      exact hc fun huser => absurd huser hidle
    rw [Lives.step, if_pos huser]
    exact fun hafter => hc ((h.exitThread_iff huser code).mp (adopted_iff.mp hafter.adopted))
  | createThread => exact absurd trivial hc
  | clone ttbr0 asid => exact absurd trivial hc
  | wait4 => exact absurd trivial hc
  | yield => exact absurd trivial hc

theorem phase_start {tid : ThreadId} (h : tid ≠ Sched.bootTid) :
    start.sched.family.phase tid = .absent := by
  show Option.elim (Sched.boot.table.lookup tid) _ _ = _
  rw [Sched.lookup_boot, if_neg h]
  rfl

theorem tracked_start : start.Tracked where
  settled := .of_invariant (Sched.invariant_boot False)
  logged tid := by
    by_cases ht : tid = Sched.bootTid
    · subst ht
      rfl
    · rw [phase_start ht]
      exact phaseAfter_append_of_ne [] ht

theorem inv_start : start.Inv where
  toTracked := tracked_start
  reapable tid code ht hne := by
    rw [phase_start hne] at ht
    cases ht

theorem mem_children {tid : ThreadId} {th : Thread} (hl : s.sched.table.lookup tid = some th)
    (hparent : th.parentTid = some s.sched.current) : th ∈ s.sched.children := by
  obtain ⟨-, hlt, hs, -⟩ := ThreadTable.lookup_eq_some.mp hl
  refine List.mem_filter.mpr ⟨?_, beq_iff_eq.mpr hparent⟩
  exact List.mem_filterMap.mpr ⟨tid.index, List.mem_range.mpr hlt, hs⟩

/-- As long as a thread has an exited child, its `sys_wait4` returns one. -/
theorem wait4_reaps {tid : ThreadId} {code : BitVec 32}
    (hdead : s.sched.family.phase tid = .exited code)
    (hchild : s.sched.family.parent tid = some s.sched.current) :
    ∃ c status, s.wait4.log = s.log ++ [.reaped c status] := by
  obtain ⟨th, hl, hdy, -⟩ := Sched.phase_exited_iff.mp hdead
  have hmem := mem_children hl ((Sched.parent_of_lookup hl).symm.trans hchild)
  unfold Lives.wait4 Sched.sysWait4
  cases hf : s.sched.children.find? fun th => th.state == .dying with
  | none => exact absurd (beq_iff_eq.mpr hdy) (List.find?_eq_none.mp hf th hmem)
  | some c => exact ⟨c.id, _, rfl⟩

/-- **Nobody is returned twice.**  In every run each id is created, exits and is returned by
`sys_wait4` in turn, with the status of the code it exited with. -/
theorem phaseAfter_run (calls : List ThreadCall) (tid : ThreadId) :
    phaseAfter (Run.exec step start calls).log tid ≠ none :=
  (Run.exec_invariant (fun _ c hs => hs.step c) tracked_start calls : Tracked _).once tid

/-- **Exited threads are reapable exactly as long as nobody is left behind**: in every state of a
run each exited thread has a parent alive, and each exit was returned at most once and with its
status, if and only if every thread that exits does so before its parent and after its children
were reaped. -/
theorem reapable_iff_leavesNobody (calls : List ThreadCall) :
    (∀ pre, pre <+: calls → (Run.exec step start pre).Reapable) ↔
      Run.Along step LeavesNobody start calls := by
  have hstep : ∀ s c, Inv s → LeavesNobody s c → Inv (step s c) := fun s c hs hc => hs.step hc
  have hbreak : ∀ s c, Inv s → ¬ LeavesNobody s c → ¬ Reapable (step s c) :=
    fun s c hs hc => hs.not_step hc
  exact Run.forall_prefix_iff_along (fun _ hs => ⟨adopted_iff.mpr hs.reapable, hs.once⟩) hstep hbreak inv_start calls

/-- A thread made by `sys_create_thread` exits. -/
def unparented : List ThreadCall := [.createThread, .yield, .exitThread 0]

/-- It stays in the table for good: it has no parent. -/
theorem unparented_not_reapable :
    ¬ ∀ pre, pre <+: unparented → (Run.exec step start pre).Reapable := by
  intro h
  have hphase : (Run.exec step start unparented).sched.family.phase ⟨1, 1⟩ = .exited 0 := by
    decide +kernel
  have hparent : (Run.exec step start unparented).sched.family.parent ⟨1, 1⟩ = none := by
    decide +kernel
  have hcur : (⟨1, 1⟩ : ThreadId) ≠ (Run.exec step start unparented).sched.current := by
    decide +kernel
  have hadopted := adopted_iff.mp (h _ (List.prefix_refl _)).adopted
  obtain ⟨pid, hpid, -⟩ := hadopted ⟨1, 1⟩ 0 hphase hcur
  rw [hparent] at hpid
  cases hpid

end Lives

end QuackOS.Sche
