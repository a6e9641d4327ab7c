import Mathlib.Data.List.Basic

/-!
# Runs of a step function

A component with global state is modelled as a total step function
`step : σ → α → σ` on an action type `α`; the source's "any sequence of calls"
is then a list of actions.  This file has the two notions every such development
needs and the induction rules that go with them:

* `exec` — the state after a list of actions;
* `Along`, `count` — every action of a run met a condition in the state it was taken in, and how
  many did;
* `exec_invariant`, `exec_invariant_along` — what one step preserves, a run preserves;
* `forall_prefix_iff_along_of`, `forall_prefix_iff_along` — a condition that is exactly what a
  property of all states needs;
* `AlongSome`, `alongSome_of_invariant`, `alongSome_iff`, `foldlM_invariant_along`,
  `forall_prefix_iff_alongSome` — the same for steps that may fail.
-/

namespace QuackOS.Run

variable {σ α : Type*}

/-- The state reached from `s` by performing the actions of a list in order. -/
def exec (step : σ → α → σ) (s : σ) (as : List α) : σ := as.foldl step s

@[simp] theorem exec_nil (step : σ → α → σ) (s : σ) : exec step s [] = s := rfl

@[simp] theorem exec_cons (step : σ → α → σ) (s : σ) (a : α) (as : List α) :
    exec step s (a :: as) = exec step (step s a) as := rfl

theorem exec_append (step : σ → α → σ) (s : σ) (as bs : List α) :
    exec step s (as ++ bs) = exec step (exec step s as) bs := List.foldl_append

/-- Every action of the run meets the condition `C` in the state it is taken in. -/
def Along (step : σ → α → σ) (C : σ → α → Prop) : σ → List α → Prop
  | _, [] => True
  | s, a :: as => C s a ∧ Along step C (step s a) as

@[simp] theorem along_nil (step : σ → α → σ) (C : σ → α → Prop) (s : σ) :
    Along step C s [] := trivial

@[simp] theorem along_cons (step : σ → α → σ) (C : σ → α → Prop) (s : σ) (a : α)
    (as : List α) : Along step C s (a :: as) ↔ C s a ∧ Along step C (step s a) as := Iff.rfl

instance decidableAlong (step : σ → α → σ) (C : σ → α → Prop)
    [∀ s a, Decidable (C s a)] : ∀ (s : σ) (as : List α), Decidable (Along step C s as)
  | _, [] => isTrue trivial
  | s, a :: as => @instDecidableAnd _ _ _ (decidableAlong step C (step s a) as)

/-- Conditions along a run split at any point of it: what held along the whole run held
along its first part. -/
theorem along_append (step : σ → α → σ) (C : σ → α → Prop) (s : σ) (as bs : List α) :
    Along step C s (as ++ bs) ↔ Along step C s as ∧ Along step C (exec step s as) bs := by
  induction as generalizing s with
  | nil => simp
  | cons a as ih => simp [ih, and_assoc]

/-- A condition on actions alone. -/
theorem along_of_forall {step : σ → α → σ} {C : α → Prop} {s : σ} {as : List α}
    (h : ∀ a ∈ as, C a) : Along step (fun _ a => C a) s as := by
  induction as generalizing s with
  | nil => trivial
  | cons a as ih =>
    exact ⟨h a (List.mem_cons_self ..), ih fun b hb => h b (List.mem_cons_of_mem a hb)⟩

/-- Two conditions hold along a run when each does. -/
theorem along_and {step : σ → α → σ} {C D : σ → α → Prop} {s : σ} {as : List α}
    (hC : Along step C s as) (hD : Along step D s as) :
    Along step (fun s a => C s a ∧ D s a) s as := by
  induction as generalizing s with
  | nil => trivial
  | cons a as ih => exact ⟨⟨hC.1, hD.1⟩, ih hC.2 hD.2⟩

/-- A family of conditions. -/
theorem along_forall {ι : Type*} {step : σ → α → σ} {C : ι → σ → α → Prop} {s : σ} {as : List α}
    (h : ∀ i, Along step (C i) s as) : Along step (fun s a => ∀ i, C i s a) s as := by
  induction as generalizing s with
  | nil => trivial
  | cons a as ih => exact ⟨fun i => (h i).1, ih fun i => (h i).2⟩

/-- How many actions of a run meet a condition in the state they are taken in. -/
def count (step : σ → α → σ) (P : σ → α → Prop) [∀ s a, Decidable (P s a)] : σ → List α → ℕ
  | _, [] => 0
  | s, a :: as => (if P s a then 1 else 0) + count step P (step s a) as

theorem count_le_length (step : σ → α → σ) (P : σ → α → Prop) [∀ s a, Decidable (P s a)] (s : σ)
    (as : List α) : count step P s as ≤ as.length := by
  induction as generalizing s with
  | nil => exact Nat.le_refl 0
  | cons a as ih =>
    have hrest := ih (step s a)
    rw [count, List.length_cons]
    split <;> omega

/-- A counter that only the counted actions raise, by one, stays below the number of them. -/
theorem along_of_count {step : σ → α → σ} {P : σ → α → Prop} [∀ s a, Decidable (P s a)]
    {G : σ → ℕ} (hG : ∀ s a, G (step s a) ≤ G s + if P s a then 1 else 0) {n : ℕ} {s : σ}
    {as : List α} (h : G s + count step P s as ≤ n) :
    Along step (fun s a => P s a → G s < n) s as := by
  induction as generalizing s with
  | nil => trivial
  | cons a as ih =>
    unfold count at h
    have hstep := hG s a
    refine ⟨fun hP => ?_, ih ?_⟩
    · rw [if_pos hP] at h
      omega
    · omega

/-- **The run rule.**  A property that every action preserves whenever the action's own
condition holds is preserved by every run all of whose actions meet their condition. -/
theorem exec_invariant_along {step : σ → α → σ} {C : σ → α → Prop} {I : σ → Prop}
    (hstep : ∀ s a, I s → C s a → I (step s a)) {s : σ} (hs : I s) {as : List α}
    (hC : Along step C s as) : I (exec step s as) := by
  induction as generalizing s with
  | nil => exact hs
  | cons a as ih => exact ih (hstep s a hs hC.1) hC.2

/-- The run rule, for every state the run passes through. -/
theorem exec_invariant_prefix {step : σ → α → σ} {C : σ → α → Prop} {I : σ → Prop}
    (hstep : ∀ s a, I s → C s a → I (step s a)) {s : σ} (hs : I s) {as pre : List α}
    (hC : Along step C s as) (hpre : pre <+: as) : I (exec step s pre) := by
  obtain ⟨rest, rfl⟩ := hpre
  exact exec_invariant_along hstep hs ((along_append step C s pre rest).mp hC).1

/-- **The exact run rule.**  When actions that meet their condition keep the invariant, and any
other action breaks the property at once, the property holds in every state of a run exactly when
the run is along the condition.  `L` is what all actions of the run are known to meet. -/
theorem forall_prefix_iff_along_of {step : σ → α → σ} {L C : σ → α → Prop} {I J : σ → Prop}
    (hJ : ∀ s, I s → J s) (hstep : ∀ s a, I s → L s a → C s a → I (step s a))
    (hbreak : ∀ s a, I s → L s a → ¬ C s a → ¬ J (step s a)) {s : σ} (hs : I s) {as : List α}
    (hL : Along step L s as) :
    (∀ pre, pre <+: as → J (exec step s pre)) ↔ Along step C s as := by
  constructor
  · intro hall
    induction as generalizing s with
    | nil => trivial
    | cons a as ih =>
      have hc : C s a := by
        by_contra hc
        exact hbreak s a hs hL.1 hc (hall [a] (by simp))
      exact ⟨hc, ih (hstep s a hs hL.1 hc) hL.2
        fun pre hpre => hall (a :: pre) (by simpa using hpre)⟩
  · intro hC pre hpre
    have hI := exec_invariant_prefix (fun s a hs hLC => hstep s a hs hLC.1 hLC.2) hs
      (along_and hL hC) hpre
    exact hJ _ hI

/-- The exact run rule for runs of any actions. -/
theorem forall_prefix_iff_along {step : σ → α → σ} {C : σ → α → Prop} {I J : σ → Prop}
    (hJ : ∀ s, I s → J s) (hstep : ∀ s a, I s → C s a → I (step s a))
    (hbreak : ∀ s a, I s → ¬ C s a → ¬ J (step s a)) {s : σ} (hs : I s) (as : List α) :
    (∀ pre, pre <+: as → J (exec step s pre)) ↔ Along step C s as :=
  forall_prefix_iff_along_of hJ (fun s a hs _ => hstep s a hs) (fun s a hs _ => hbreak s a hs) hs
    (along_of_forall fun _ _ => trivial : Along step (fun _ _ => True) s as)

/-- What an invariant gives of every single action, holds of every action of a run. -/
theorem along_of_invariant {step : σ → α → σ} {C D : σ → α → Prop} {I : σ → Prop}
    (hstep : ∀ s a, I s → C s a → I (step s a)) (hD : ∀ s a, I s → C s a → D s a) {s : σ}
    (hs : I s) {as : List α} (hC : Along step C s as) : Along step D s as := by
  induction as generalizing s with
  | nil => trivial
  | cons a as ih => exact ⟨hD s a hs hC.1, ih (hstep s a hs hC.1) hC.2⟩

/-- The run rule for a property every action preserves unconditionally. -/
theorem exec_invariant {step : σ → α → σ} {I : σ → Prop} (hstep : ∀ s a, I s → I (step s a))
    {s : σ} (hs : I s) (as : List α) : I (exec step s as) := by
  induction as generalizing s with
  | nil => exact hs
  | cons a as ih => exact ih (hstep s a hs)

/-- The run rule for steps that may fail: what every step that succeeds preserves, a run
that succeeds preserves. -/
theorem foldlM_invariant {step : σ → α → Option σ} {I : σ → Prop} {as : List α}
    (hstep : ∀ s a s', a ∈ as → I s → step s a = some s' → I s') {s s' : σ} (hs : I s)
    (h : as.foldlM step s = some s') : I s' := by
  induction as generalizing s with
  | nil =>
    cases h
    exact hs
  | cons a as ih =>
    rw [List.foldlM_cons] at h
    obtain ⟨s₁, h₁, h'⟩ := Option.bind_eq_some_iff.mp h
    exact ih (fun s b s' hb => hstep s b s' (List.mem_cons_of_mem a hb))
      (hstep s a s₁ (List.mem_cons_self ..) hs h₁) h'

/-- Every action of a run meets the condition in the state it is taken in, when a step may
fail; a step that fails ends the run. -/
def AlongSome (step : σ → α → Option σ) (C : σ → α → Prop) : σ → List α → Prop
  | _, [] => True
  | s, a :: as => C s a ∧ ∀ s', step s a = some s' → AlongSome step C s' as

/-- One more action is along the condition if it meets it where the run ends. -/
theorem AlongSome.concat {step : σ → α → Option σ} {C : σ → α → Prop} {s : σ} {as : List α} {a : α}
    (h : AlongSome step C s as) (ha : ∀ s', as.foldlM step s = some s' → C s' a) :
    AlongSome step C s (as ++ [a]) := by
  induction as generalizing s with
  | nil => exact ⟨ha s rfl, fun _ _ => trivial⟩
  | cons b as ih =>
    refine ⟨h.1, fun s₁ h₁ => ih (h.2 s₁ h₁) fun s' hrun => ha s' ?_⟩
    rw [List.foldlM_cons, h₁]
    exact hrun

/-- A condition that holds along a run holds of each step of it. -/
theorem AlongSome.mid {step : σ → α → Option σ} {C : σ → α → Prop} {s s' : σ} {pre post : List α}
    {a : α} (h : AlongSome step C s (pre ++ a :: post)) (hpre : pre.foldlM step s = some s') :
    C s' a := by
  induction pre generalizing s with
  | nil =>
    cases hpre
    exact h.1
  | cons b pre ih =>
    rw [List.foldlM_cons] at hpre
    obtain ⟨s₁, h₁, hrest⟩ := Option.bind_eq_some_iff.mp hpre
    exact ih (h.2 s₁ h₁) hrest

/-- **The run rule for what single steps do.**  When every action that meets its condition keeps
the invariant and does `D`, every action of a run along the condition does `D`. -/
theorem alongSome_of_invariant {step : σ → α → Option σ} {C D : σ → α → Prop} {I : σ → Prop}
    (hstep : ∀ s a s', I s → C s a → step s a = some s' → I s')
    (hD : ∀ s a, I s → C s a → D s a) {s : σ} (hs : I s) {as : List α}
    (hC : AlongSome step C s as) : AlongSome step D s as := by
  induction as generalizing s with
  | nil => trivial
  | cons a as ih =>
    refine ⟨hD s a hs hC.1, fun s' hs' => ?_⟩
    exact ih (hstep s a s' hs hC.1 hs') (hC.2 s' hs')

/-- **The run rule along a condition**, for steps that may fail. -/
theorem foldlM_invariant_along {step : σ → α → Option σ} {C : σ → α → Prop} {I : σ → Prop}
    (hstep : ∀ s a s', I s → C s a → step s a = some s' → I s') {s s' : σ} (hs : I s) {as : List α}
    (hC : AlongSome step C s as) (h : as.foldlM step s = some s') : I s' := by
  induction as generalizing s with
  | nil =>
    cases h
    exact hs
  | cons a as ih =>
    rw [List.foldlM_cons] at h
    obtain ⟨s₁, h₁, h'⟩ := Option.bind_eq_some_iff.mp h
    exact ih (hstep s a s₁ hs hC.1 h₁) (hC.2 s₁ h₁) h'

/-- **The exact run rule**, for steps that come back from every state of the invariant: when the
property goes on exactly by actions that meet their condition, it holds in every state of a run
exactly when the run is along the condition. -/
theorem forall_prefix_iff_alongSome {step : σ → α → Option σ} {C : σ → α → Prop} {I J : σ → Prop}
    (hstep : ∀ s a, I s → J s → ∃ s', step s a = some s' ∧ I s' ∧ (J s' ↔ C s a)) {s : σ}
    (hs : I s) (hJ : J s) (as : List α) :
    (∀ pre, pre <+: as → ∃ s', pre.foldlM step s = some s' ∧ J s') ↔ AlongSome step C s as := by
  induction as generalizing s with
  | nil =>
    refine iff_of_true (fun pre hpre => ?_) trivial
    rw [List.prefix_nil.mp hpre]
    exact ⟨s, rfl, hJ⟩
  | cons a as ih =>
    obtain ⟨s₁, h₁, hI₁, hJ₁⟩ := hstep s a hs hJ
    have hcons : ∀ pre, (a :: pre).foldlM step s = pre.foldlM step s₁ := by
      intro pre
      rw [List.foldlM_cons, h₁]
      rfl
    constructor
    · intro hall
      obtain ⟨s', hs', hJ'⟩ := hall [a] (by simp)
      rw [hcons] at hs'
      obtain rfl : s₁ = s' := Option.some.inj hs'
      refine ⟨hJ₁.mp hJ', fun s₂ h₂ => ?_⟩
      obtain rfl : s₁ = s₂ := Option.some.inj (h₁.symm.trans h₂)
      refine (ih hI₁ hJ').mp fun pre hpre => ?_
      obtain ⟨s₂, hs₂, hJ₂⟩ := hall (a :: pre) (by simpa using hpre)
      exact ⟨s₂, (hcons pre).symm.trans hs₂, hJ₂⟩
    · rintro ⟨ha, has⟩ pre hpre
      cases pre with
      | nil => exact ⟨s, rfl, hJ⟩
      | cons b pre =>
        obtain ⟨rfl, hrest⟩ := List.cons_prefix_cons.mp hpre
        rw [hcons]
        exact (ih hI₁ (hJ₁.mpr ha)).mpr (has s₁ h₁) pre hrest

/-- **The exact run rule for steps that may fail.**  When the property goes on by the actions that
meet their condition and is lost by any other, it holds in every state a run comes to exactly when
the run is along the condition. -/
theorem reached_iff_alongSome {step : σ → α → Option σ} {C : σ → α → Prop} {I J : σ → Prop}
    (hI : ∀ s a s', I s → step s a = some s' → I s')
    (hgood : ∀ s a s', I s → J s → C s a → step s a = some s' → J s')
    (hbad : ∀ s a, I s → ¬ C s a → ∃ s', step s a = some s' ∧ ¬ J s') {s : σ} (hs : I s)
    (hJ : J s) (as : List α) :
    (∀ pre, pre <+: as → ∀ s', pre.foldlM step s = some s' → J s') ↔ AlongSome step C s as := by
  induction as generalizing s with
  | nil =>
    refine iff_of_true (fun pre hpre s' h => ?_) trivial
    rw [List.prefix_nil.mp hpre] at h
    cases h
    exact hJ
  | cons a as ih =>
    have hcons : ∀ {s₁}, step s a = some s₁ → ∀ pre, (a :: pre).foldlM step s = pre.foldlM step s₁ := by
      intro s₁ h₁ pre
      rw [List.foldlM_cons, h₁]
      rfl
    constructor
    · intro hall
      have hnext : ∀ s₁, step s a = some s₁ → J s₁ := fun s₁ h₁ =>
        hall [a] (by simp) s₁ (hcons h₁ [])
      refine ⟨?_, fun s₁ h₁ => (ih (hI s a s₁ hs h₁) (hnext s₁ h₁)).mp fun pre hpre s' h => ?_⟩
      · by_contra hC
        obtain ⟨s₁, h₁, hlost⟩ := hbad s a hs hC
        exact hlost (hnext s₁ h₁)
      · exact hall (a :: pre) (by simpa using hpre) s' ((hcons h₁ pre).trans h)
    · rintro ⟨ha, has⟩ pre hpre s' h
      cases pre with
      | nil =>
        cases h
        exact hJ
      | cons b pre =>
        obtain ⟨rfl, hrest⟩ := List.cons_prefix_cons.mp hpre
        rw [List.foldlM_cons] at h
        obtain ⟨s₁, h₁, h⟩ := Option.bind_eq_some_iff.mp h
        exact (ih (hI s b s₁ hs h₁) (hgood s b s₁ hs hJ ha h₁)).mpr (has s₁ h₁) pre hrest s' h

/-- **The exact rule for single steps.**  When the invariant, which may speak of the actions to
come, makes `D` and `C` say the same of the next action, they say the same of a run that comes
back. -/
theorem alongSome_iff {step : σ → α → Option σ} {C D : σ → α → Prop} {I : σ → List α → Prop}
    (hD : ∀ s a as s', I s (a :: as) → step s a = some s' → (D s a ↔ C s a))
    (hstep : ∀ s a as s', I s (a :: as) → C s a → step s a = some s' → I s' as) {s s' : σ}
    {as : List α} (hs : I s as) (hrun : as.foldlM step s = some s') :
    AlongSome step D s as ↔ AlongSome step C s as := by
  induction as generalizing s with
  | nil => exact Iff.rfl
  | cons a as ih =>
    rw [List.foldlM_cons] at hrun
    obtain ⟨s₁, h₁, hrest⟩ := Option.bind_eq_some_iff.mp hrun
    have hiff := hD s a as s₁ hs h₁
    constructor
    · rintro ⟨ha, has⟩
      refine ⟨hiff.mp ha, fun s₂ h₂ => ?_⟩
      obtain rfl : s₁ = s₂ := Option.some.inj (h₁.symm.trans h₂)
      exact (ih (hstep s a as s₁ hs (hiff.mp ha) h₁) hrest).mp (has s₁ h₁)
    · rintro ⟨ha, has⟩
      refine ⟨hiff.mpr ha, fun s₂ h₂ => ?_⟩
      obtain rfl : s₁ = s₂ := Option.some.inj (h₁.symm.trans h₂)
      exact (ih (hstep s a as s₁ hs ha h₁) hrest).mpr (has s₁ h₁)

/-- A computation in two parts ends well when both do. -/
theorem bind_eq_ok {ε β : Type*} {x : Except ε σ} {f : σ → Except ε β} {b : β} :
    x.bind f = .ok b ↔ ∃ a, x = .ok a ∧ f a = .ok b := by
  cases x with
  | error e => simp [Except.bind]
  | ok a => simp [Except.bind]

theorem map_eq_ok {ε β : Type*} {x : Except ε σ} {f : σ → β} {b : β} :
    x.map f = .ok b ↔ ∃ a, x = .ok a ∧ f a = b := by
  cases x with
  | error e => simp [Except.map]
  | ok a => simp [Except.map]

/-- A computation that ends well ends in `Q`, and one that fails fails with an error in
`E`. -/
structure Ends {ε : Type*} (r : Except ε σ) (Q : σ → Prop) (E : ε → Prop) : Prop where
  ok : ∀ s, r = .ok s → Q s
  error : ∀ e, r = .error e → E e

theorem ends_ok {ε : Type*} {Q : σ → Prop} {E : ε → Prop} {s : σ} (h : Q s) :
    Ends (.ok s) Q E :=
  ⟨fun _ hs => Except.ok.inj hs ▸ h, fun _ he => nomatch he⟩

/-- **The loop rule.**  The invariant speaks of the items done so far; an error of the body
ends the loop. -/
theorem foldlM_ends {ε : Type*} {body : σ → α → Except ε σ} {J : List α → σ → Prop}
    {E : ε → Prop} {as : List α}
    (hbody : ∀ done a rest s, as = done ++ a :: rest → J done s →
      Ends (body s a) (J (done ++ [a])) E)
    {s : σ} (hs : J [] s) : Ends (as.foldlM body s) (J as) E := by
  suffices h : ∀ rest done s, as = done ++ rest → J done s → Ends (rest.foldlM body s) (J as) E from
    h as [] s rfl hs
  intro rest
  induction rest with
  | nil =>
    intro done s has hJ
    rw [List.append_nil] at has
    subst has
    exact ends_ok hJ
  | cons a rest ih =>
    intro done s has hJ
    have h := hbody done a rest s has hJ
    rw [List.foldlM_cons]
    cases hb : body s a with
    | error e => exact ⟨(fun _ hs => nomatch hs), fun e' he => h.error e' (hb.trans he)⟩
    | ok s' => exact ih (done ++ [a]) s' (by simp [has]) (h.ok s' hb)

end QuackOS.Run
