import Mathlib.Data.List.Basic

/-!
# Simulation of runs with answers

A component answers every call and may not come back from one: a step is a function
`σ → α → Option (β × σ)` to the answer and the next state.  Two such components compare by the
answers they give.

* `exec` — the answers of a run of calls, and the state it ends in;
* `Along` — every call of a run meets a condition in the state it is made in;
* `Simulates` — one step of the first is matched by one of the second with the same answer;
* `Simulates.exec` — then so is a run.
-/

namespace QuackOS.Simulation

variable {σ τ υ α β : Type*}

/-- The answers of a run of calls and the state after it; a call that does not come back ends
the run. -/
def exec (step : σ → α → Option (β × σ)) : σ → List α → Option (List β × σ)
  | s, [] => some ([], s)
  | s, a :: as =>
    match step s a with
    | none => none
    | some (b, s') => (exec step s' as).map fun r => (b :: r.1, r.2)

/-- Every call of a run meets the condition in the state it is made in. -/
def Along (step : σ → α → Option (β × σ)) (C : σ → α → Prop) : σ → List α → Prop
  | _, [] => True
  | s, a :: as => C s a ∧ ∀ b s', step s a = some (b, s') → Along step C s' as

/-- `R` is a simulation: from related states, a call that meets the condition and comes back is
answered alike by the second component, and the states after it are related. -/
def Simulates (step : σ → α → Option (β × σ)) (spec : τ → α → Option (β × τ))
    (C : σ → α → Prop) (R : σ → τ → Prop) : Prop :=
  ∀ s t a b s', R s t → C s a → step s a = some (b, s') → ∃ t', spec t a = some (b, t') ∧ R s' t'

section Runs

variable {step : σ → α → Option (β × σ)} {spec : τ → α → Option (β × τ)} {C : σ → α → Prop}
  {R : σ → τ → Prop}

/-- A run of one call more. -/
theorem exec_cons_eq_some {s : σ} {a : α} {as : List α} {bs : List β} {s' : σ}
    (h : exec step s (a :: as) = some (bs, s')) :
    ∃ b s₁ bs', step s a = some (b, s₁) ∧ exec step s₁ as = some (bs', s') ∧ bs = b :: bs' := by
  rw [exec] at h
  split at h
  · cases h
  · rename_i b s₁ hstep
    obtain ⟨⟨bs', s₂⟩, hrest, heq⟩ := Option.map_eq_some_iff.mp h
    cases heq
    exact ⟨b, s₁, bs', hstep, hrest, rfl⟩

/-- **The simulation rule.**  A run of calls that meet their condition is answered alike by the
second component. -/
theorem Simulates.exec (h : Simulates step spec C R) {s s' : σ} {t : τ} {as : List α}
    {bs : List β} (hR : R s t) (hC : Along step C s as)
    (hrun : exec step s as = some (bs, s')) :
    ∃ t', Simulation.exec spec t as = some (bs, t') ∧ R s' t' := by
  induction as generalizing s t bs with
  | nil =>
    cases hrun
    exact ⟨t, rfl, hR⟩
  | cons a as ih =>
    obtain ⟨b, s₁, bs', hstep, hrest, rfl⟩ := exec_cons_eq_some hrun
    obtain ⟨t₁, hspec, hR₁⟩ := h s t a b s₁ hR hC.1 hstep
    obtain ⟨t', ht', hR'⟩ := ih hR₁ (hC.2 b s₁ hstep) hrest
    refine ⟨t', ?_, hR'⟩
    rw [Simulation.exec, hspec]
    simp only [ht', Option.map_some]

end Runs

end QuackOS.Simulation
