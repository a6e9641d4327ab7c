import Mathlib.Logic.Basic

/-!
# Computations that may panic

A step of a kernel function changes a state and ends with a value or with an error, or it does not
end at all: it panics.

* `Fallible` — such computations, with their monad;
* `Whenever` — what holds whenever a computation ends with a value;
* `Exactly` — a computation panics unless a condition holds, and under it ends with a value;
* `bind` of each — the rules for one computation after another.
-/

namespace QuackOS

/-- A computation on states `σ`, with errors `ε`; `none` is a panic. -/
def Fallible (σ ε α : Type) : Type := σ → Option (Except ε α × σ)

namespace Fallible

variable {σ ε α β : Type}

instance : Monad (Fallible σ ε) where
  pure a := fun s => some (.ok a, s)
  bind x f := fun s =>
    match x s with
    | none => none
    | some (.error e, s) => some (.error e, s)
    | some (.ok a, s) => f a s

/-- Ends with an error. -/
def fail (e : ε) : Fallible σ ε α := fun s => some (.error e, s)

/-- A value that does not depend on the state, if there is one. -/
def lift (x : Option α) : Fallible σ ε α := fun s => x.map fun a => (.ok a, s)

section Runs

variable {x : Fallible σ ε α} {f : α → Fallible σ ε β} {s s' : σ} {a : α} {b : β}

@[simp] theorem lift_run_some (a : α) (s : σ) : (lift (some a) : Fallible σ ε α) s = some (.ok a, s) := rfl

@[simp] theorem lift_run_none (s : σ) : (lift none : Fallible σ ε α) s = none := rfl

theorem bind_run_none (h : x s = none) : (x >>= f) s = none := by
  show (match x s with
    | none => none
    | some (.error e, s) => some (.error e, s)
    | some (.ok a, s) => f a s) = none
  rw [h]

theorem bind_run_ok (h : x s = some (.ok a, s')) : (x >>= f) s = f a s' := by
  show (match x s with
    | none => none
    | some (.error e, s) => some (.error e, s)
    | some (.ok a, s) => f a s) = f a s'
  rw [h]

/-- A computation that ends with a value does so in each of its parts. -/
theorem of_bind_run_ok (h : (x >>= f) s = some (.ok b, s')) :
    ∃ a s₁, x s = some (.ok a, s₁) ∧ f a s₁ = some (.ok b, s') := by
  change (match x s with
    | none => none
    | some (.error e, s) => some (.error e, s)
    | some (.ok a, s) => f a s) = some (.ok b, s') at h
  split at h
  · cases h
  · cases h
  · exact ⟨_, _, by assumption, h⟩

end Runs

/-! ## What holds whenever a value comes back -/

/-- Whenever the computation ends with a value, `Q` holds of it and of the state. -/
def Whenever (x : Fallible σ ε α) (s : σ) (Q : α → σ → Prop) : Prop :=
  ∀ a s', x s = some (.ok a, s') → Q a s'

namespace Whenever

variable {x : Fallible σ ε α} {f : α → Fallible σ ε β} {s : σ} {P : α → σ → Prop} {Q : β → σ → Prop}

theorem pure {a : α} (h : P a s) : Whenever (Pure.pure a : Fallible σ ε α) s P := by
  intro a' s' hrun
  cases hrun
  exact h

theorem bind (hx : Whenever x s P) (hf : ∀ a s', P a s' → Whenever (f a) s' Q) :
    Whenever (x >>= f) s Q := by
  intro b s' hrun
  obtain ⟨a, s₁, h₁, h₂⟩ := of_bind_run_ok hrun
  exact hf a s₁ (hx a s₁ h₁) b s' h₂

theorem lift {o : Option α} (h : ∀ a, o = some a → P a s) :
    Whenever (Fallible.lift o : Fallible σ ε α) s P := by
  intro a s' hrun
  obtain ⟨a', ha, heq⟩ := Option.map_eq_some_iff.mp hrun
  cases heq
  exact h a ha

end Whenever

/-! ## What a computation needs -/

/-- The computation panics unless `ok` holds; under it, it ends with a value and a state as `Q`
says. -/
structure Exactly (x : Fallible σ ε α) (s : σ) (ok : Prop) (Q : α → σ → Prop) : Prop where
  ends : ok → ∃ a s', x s = some (.ok a, s') ∧ Q a s'
  panics : ¬ ok → x s = none

namespace Exactly

variable {x : Fallible σ ε α} {f : α → Fallible σ ε β} {s : σ} {ok ok' : Prop} {P : α → σ → Prop}
  {Q : β → σ → Prop}

theorem pure {a : α} (h : P a s) : Exactly (Pure.pure a : Fallible σ ε α) s True P :=
  ⟨fun _ => ⟨a, s, rfl, h⟩, fun hno => absurd trivial hno⟩

theorem lift {o : Option α} (hsome : ok → ∃ a, o = some a ∧ P a s) (hnone : ¬ ok → o = none) :
    Exactly (Fallible.lift o : Fallible σ ε α) s ok P := by
  refine ⟨fun hok => ?_, fun hno => ?_⟩
  · obtain ⟨a, rfl, ha⟩ := hsome hok
    exact ⟨a, s, rfl, ha⟩
  · rw [hnone hno]
    rfl

/-- One computation after another needs what both need. -/
theorem bind (hx : Exactly x s ok P) (hf : ∀ a s', P a s' → Exactly (f a) s' ok' Q) :
    Exactly (x >>= f) s (ok ∧ ok') Q := by
  refine ⟨fun hok => ?_, fun hno => ?_⟩
  · obtain ⟨a, s₁, hrun, ha⟩ := hx.ends hok.1
    rw [bind_run_ok hrun]
    exact (hf a s₁ ha).ends hok.2
  · by_cases hok : ok
    · obtain ⟨a, s₁, hrun, ha⟩ := hx.ends hok
      rw [bind_run_ok hrun]
      exact (hf a s₁ ha).panics fun hok' => hno ⟨hok, hok'⟩
    · exact bind_run_none (hx.panics hok)

/-- The rule for a computation whose value is known. -/
theorem bind_of_eq {a : α} {R : σ → Prop} (hx : Exactly x s ok fun a' s' => a' = a ∧ R s')
    (hf : ∀ s', R s' → Exactly (f a) s' ok' Q) : Exactly (x >>= f) s (ok ∧ ok') Q := by
  refine hx.bind fun a' s' h => ?_
  obtain ⟨rfl, hr⟩ := h
  exact hf s' hr

theorem congr (hx : Exactly x s ok P) (h : ok ↔ ok') : Exactly x s ok' P :=
  ⟨fun hok => hx.ends (h.mpr hok), fun hno => hx.panics fun hok => hno (h.mp hok)⟩

end Exactly

end Fallible

end QuackOS
